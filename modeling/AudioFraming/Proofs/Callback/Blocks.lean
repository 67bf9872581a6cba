import AudioFraming.Callback
import Mathlib.Tactic

/-!
# A signal in blocks

Blocks of one length cover the signal, in order, and only the last one holds silence
after it.
-/

namespace AudioFraming

variable {quantum : Nat}

theorem length_of_mem_blocks {signal block : List Sample} (h : block ∈ blocks quantum signal) :
    block.length = quantum := by
  induction signal using blocks.induct quantum with
  | case1 signal hend =>
    rw [blocks, if_pos hend] at h
    cases h
  | case2 signal hgo ih =>
    rw [blocks, if_neg hgo] at h
    rcases List.mem_cons.mp h with rfl | h
    · simp
    · exact ih h

/-- As many blocks as it takes. -/
theorem length_blocks (hpos : 0 < quantum) (signal : List Sample) :
    (blocks quantum signal).length = (signal.length + quantum - 1) / quantum := by
  induction signal using blocks.induct quantum with
  | case1 signal hend =>
    obtain rfl := hend.resolve_left (Nat.ne_of_gt hpos)
    rw [blocks, if_pos hend]
    refine (Nat.div_eq_of_lt ?_).symm
    rw [List.length_nil]
    omega
  | case2 signal hgo ih =>
    have hlen := List.length_pos_iff.mpr (not_or.mp hgo).2
    rw [blocks, if_neg hgo, List.length_cons, ih, List.length_drop]
    by_cases hle : signal.length ≤ quantum
    · have hlast : signal.length + quantum - 1 = signal.length - 1 + quantum := by omega
      rw [Nat.sub_eq_zero_of_le hle, hlast, Nat.add_div_right _ hpos, Nat.div_eq_of_lt (by omega),
        Nat.div_eq_of_lt (by omega)]
    · have hmore : signal.length + quantum - 1 =
          signal.length - quantum + quantum - 1 + quantum := by omega
      rw [hmore, Nat.add_div_right _ hpos]

/-- The signal, filled up to whole blocks. -/
theorem flatten_blocks (hpos : 0 < quantum) (signal : List Sample) :
    (blocks quantum signal).flatten =
      signal ++ Sample.silence ((blocks quantum signal).length * quantum - signal.length) := by
  induction signal using blocks.induct quantum with
  | case1 signal hend =>
    obtain rfl := hend.resolve_left (Nat.ne_of_gt hpos)
    rw [blocks, if_pos hend]
    simp [Sample.silence]
  | case2 signal hgo ih =>
    have hlen := List.length_pos_iff.mpr (not_or.mp hgo).2
    rw [blocks, if_neg hgo, List.flatten_cons, ih, List.length_cons, Nat.succ_mul]
    by_cases hle : signal.length ≤ quantum
    · have hnone : blocks quantum (signal.drop quantum) = [] := by
        rw [blocks, if_pos (Or.inr (List.drop_eq_nil_of_le hle))]
      rw [hnone, List.drop_eq_nil_of_le hle, List.take_of_length_le hle]
      simp [Sample.silence]
    · have hfull : quantum - (signal.take quantum).length = 0 := by
        rw [List.length_take]
        omega
      rw [hfull, List.length_drop, ← List.append_assoc]
      simp only [Sample.silence, List.replicate_zero, List.append_nil, List.take_append_drop]
      congr 2
      omega

/-- A signal that ends with a whole block goes on with the next one. -/
theorem blocks_append (hpos : 0 < quantum) {signal : List Sample} (hdvd : quantum ∣ signal.length)
    (later : List Sample) :
    blocks quantum (signal ++ later) = blocks quantum signal ++ blocks quantum later := by
  induction signal using blocks.induct quantum with
  | case1 signal hend =>
    obtain rfl := hend.resolve_left (Nat.ne_of_gt hpos)
    rw [List.nil_append, blocks.eq_def quantum [], if_pos (Or.inr rfl), List.nil_append]
  | case2 signal hgo ih =>
    have hne := (not_or.mp hgo).2
    have hle := Nat.le_of_dvd (List.length_pos_iff.mpr hne) hdvd
    have hgo' : ¬(quantum = 0 ∨ signal ++ later = []) := by
      rw [List.append_eq_nil_iff]
      tauto
    have hrest : quantum ∣ (signal.drop quantum).length := by
      rw [List.length_drop]
      exact Nat.dvd_sub hdvd dvd_rfl
    rw [blocks, if_neg hgo', blocks.eq_def quantum signal, if_neg hgo,
      List.take_append_of_le_length hle, List.drop_append_of_le_length hle, ih hrest,
      List.cons_append]

end AudioFraming
