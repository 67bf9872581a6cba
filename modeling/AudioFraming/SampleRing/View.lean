import AudioFraming.SampleRing

/-!
# The queue behind a ring

Every operation of a ring, seen through the list of its unread samples: `skip`
drops from the front, `append` adds at the back, and a pull takes a prefix. A
push keeps the last samples that fit, whatever the indices are. All of it rests
on one fact, `toList_getElem?`: sample `i` lies in the cell `i` steps after the
read index, round the end of the cells.
-/

namespace AudioFraming

namespace SampleRing

/-- A step of less than one round wraps at most once. -/
theorem mod_eq_ite {i n : Nat} (h : i < 2 * n) : i % n = if i < n then i else i - n := by
  by_cases hi : i < n
  · rw [if_pos hi, Nat.mod_eq_of_lt hi]
  · rw [if_neg hi, Nat.mod_eq_sub_mod (by omega), Nat.mod_eq_of_lt (by omega)]

theorem oldest_getElem? (r : SampleRing) {n : Nat} (h : n ≤ r.available) (i : Nat) :
    (r.oldest n)[i]? =
      if i < n then some (r.cells.get ((r.readIndex + i) % r.cells.size)) else none := by
  have hr := r.readIndex_lt
  have ha := r.available_le
  have hlen : (r.cells.read r.readIndex (min n (r.cells.size - r.readIndex))).length =
      min n (r.cells.size - r.readIndex) := by
    rw [Cells.length_read]
    omega
  simp only [oldest, capacity, List.getElem?_append, hlen, Cells.read_getElem?]
  by_cases hi : i < n
  · rw [mod_eq_ite (by omega : r.readIndex + i < 2 * r.cells.size), if_pos hi]
    by_cases hw : r.readIndex + i < r.cells.size
    · have : i < min n (r.cells.size - r.readIndex) := by omega
      rw [if_pos this, if_pos ⟨this, hw⟩, if_pos hw]
    · have h1 : ¬i < min n (r.cells.size - r.readIndex) := by omega
      have h2 : i - min n (r.cells.size - r.readIndex) <
          n - min n (r.cells.size - r.readIndex) ∧
          0 + (i - min n (r.cells.size - r.readIndex)) < r.cells.size := by omega
      rw [if_neg h1, if_pos h2, if_neg hw]
      congr 2
      omega
  · have h1 : ¬i < min n (r.cells.size - r.readIndex) := by omega
    have h2 : ¬(i - min n (r.cells.size - r.readIndex) <
        n - min n (r.cells.size - r.readIndex) ∧
        0 + (i - min n (r.cells.size - r.readIndex)) < r.cells.size) := by omega
    rw [if_neg h1, if_neg h2, if_neg hi]

/-- Where the samples of the queue lie. -/
theorem toList_getElem? (r : SampleRing) (i : Nat) :
    r.toList[i]? =
      if i < r.available then some (r.cells.get ((r.readIndex + i) % r.cells.size)) else none :=
  r.oldest_getElem? (Nat.le_refl _) i

theorem oldest_eq_take (r : SampleRing) {n : Nat} (h : n ≤ r.available) :
    r.oldest n = r.toList.take n := by
  apply List.ext_getElem?
  intro i
  rw [r.oldest_getElem? h, List.getElem?_take, r.toList_getElem?]
  by_cases hi : i < n
  · rw [if_pos hi, if_pos hi, if_pos (by omega)]
  · rw [if_neg hi, if_neg hi]

@[simp] theorem toList_ofCapacity (n : Nat) (h : 0 < n) : (ofCapacity n h).toList = [] :=
  List.eq_nil_of_length_eq_zero (length_toList _)

@[simp] theorem toList_clear (r : SampleRing) : r.clear.toList = [] :=
  List.eq_nil_of_length_eq_zero (length_toList _)

theorem toList_skip (r : SampleRing) (n : Nat) (h : n ≤ r.available) :
    (r.skip n h).toList = r.toList.drop n := by
  apply List.ext_getElem?
  intro i
  rw [List.getElem?_drop, toList_getElem?, toList_getElem?]
  have e : ((r.readIndex + n) % r.cells.size + i) % r.cells.size =
      (r.readIndex + (n + i)) % r.cells.size := by
    rw [Nat.mod_add_mod, Nat.add_assoc]
  simp only [skip, e]
  by_cases hi : n + i < r.available
  · rw [if_pos hi, if_pos (by omega)]
  · rw [if_neg hi, if_neg (by omega)]

theorem toList_append (r : SampleRing) (block : List Sample) (h : block.length ≤ r.free) :
    (r.append block h).toList = r.toList ++ block := by
  have hr := r.readIndex_lt
  have ha := r.available_le
  have hf : block.length ≤ r.cells.size - r.available := h
  have hw : r.writeIndex = if r.readIndex + r.available < r.cells.size
      then r.readIndex + r.available else r.readIndex + r.available - r.cells.size := by
    rw [r.writeIndex_eq, mod_eq_ite (by omega)]
  apply List.ext_getElem?
  intro i
  rw [List.getElem?_append, length_toList, toList_getElem?, toList_getElem?]
  simp only [append, capacity, Cells.size_write, Cells.get_write, List.getD_eq_getElem?_getD,
    List.getElem?_take, List.getElem?_drop]
  by_cases hi : i < r.available + block.length
  · rw [if_pos hi, mod_eq_ite (by omega : r.readIndex + i < 2 * r.cells.size)]
    split at hw <;> grind
  · rw [if_neg hi, if_neg (by omega), List.getElem?_eq_none (by omega)]

theorem toList_makeRoom (r : SampleRing) (n : Nat) (h : n ≤ r.capacity) :
    (r.makeRoom n h).toList = r.toList.drop (n - r.free) := by
  unfold makeRoom
  split
  · exact r.toList_skip _ (r.deficit_le h)
  · rw [Nat.sub_eq_zero_of_le (by omega), List.drop_zero]

/-- The queue after a push that is not refused. -/
theorem toList_push {r s : SampleRing} {block : List Sample} {n : Nat}
    (h : r.push block = .ok (n, s)) :
    s.toList = (r.toList ++ block).drop (r.available + block.length - r.capacity) := by
  have ha : r.available ≤ r.capacity := r.available_le
  unfold push at h
  split at h
  · rename_i hb
    obtain ⟨rfl, rfl⟩ := Prod.mk.inj (Except.ok.inj h)
    have : block = [] := List.eq_nil_of_length_eq_zero hb
    subst this
    rw [List.append_nil, Nat.sub_eq_zero_of_le (by simpa using ha), List.drop_zero]
    rfl
  · split at h
    · rename_i hc
      obtain ⟨rfl, rfl⟩ := Prod.mk.inj (Except.ok.inj h)
      have hd : block.length - r.free = r.available + block.length - r.capacity := by
        unfold free
        omega
      rw [toList_append, toList_makeRoom, hd, List.drop_append_of_le_length]
      rw [length_toList, ← hd]
      exact r.deficit_le hc
    · cases h

/-- A push is refused only if the block is longer than the ring. -/
theorem push_eq_error_iff (r : SampleRing) (block : List Sample) (e : SetupError) :
    r.push block = .error e ↔
      r.capacity < block.length ∧ e = .pushExceedsCapacity block.length r.capacity := by
  have := r.capacity_pos
  unfold push
  split
  · simp
    omega
  · split
    · simp
      omega
    · simp only [Except.error.injEq]
      constructor
      · rintro rfl
        exact ⟨by omega, rfl⟩
      · exact fun h => h.2.symm

theorem toList_pull (r : SampleRing) (destination : List Sample) :
    (r.pull destination).ring.toList = r.toList.drop (r.pull destination).count := by
  unfold pull
  split
  · rfl
  · split
    · rename_i h
      exact r.toList_skip _ h
    · rfl

theorem block_pull (r : SampleRing) {destination : List Sample}
    (h : destination.length ≤ r.available) :
    (r.pull destination).block = r.toList.take destination.length := by
  unfold pull
  split
  · rename_i hd
    rw [hd, List.take_zero]
    exact List.eq_nil_of_length_eq_zero hd
  · exact r.oldest_eq_take h

end SampleRing

end AudioFraming
