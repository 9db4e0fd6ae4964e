import AgeCrypt.Bytes

/-!
# Byte strings cut into pieces of one size

A non-empty byte string is cut into full pieces and a last one that is not empty; the empty one is a single empty
piece. There is one way to cut so (`cut_flatten`), which the gathering of bytes and the splitting of a
payload both follow.
-/

namespace AgeCrypt

/-- The pieces of `n` bytes of a byte string, the last of which may be shorter. There is always one. -/
def cut (n : Nat) (bs : Bytes) : List Bytes := if bs = [] then [[]] else pieces n bs

/-- Full pieces before a last one, which is empty only if it is alone. -/
structure IsCut (n : Nat) (full : List Bytes) (last : Bytes) : Prop where
  full_length : ∀ piece ∈ full, piece.length = n
  last_length : last.length ≤ n
  alone : last = [] → full = []

theorem IsCut.nil (n : Nat) : IsCut n [] [] := ⟨by simp, by simp, fun _ => rfl⟩

theorem pieces_flatten {n : Nat} {full : List Bytes} {last : Bytes} (full_length : ∀ piece ∈ full, piece.length = n)
    (last_length : last.length ≤ n) (some : last ≠ []) : pieces n (full.flatten ++ last) = full ++ [last] := by
  have pos : last.length ≠ 0 := fun none => some (List.length_eq_zero_iff.1 none)
  induction full with
  | nil =>
    rw [List.flatten_nil, List.nil_append, pieces, if_neg (by simp [some]; omega),
      List.take_of_length_le last_length, List.drop_eq_nil_of_le last_length, pieces, if_pos (.inr rfl)]
    rfl
  | cons piece full ih =>
    have size := full_length piece List.mem_cons_self
    have rest := ih fun other member => full_length other (List.mem_cons_of_mem piece member)
    rw [List.flatten_cons, List.append_assoc, pieces, if_neg (by simp [some]; omega), List.take_left' size,
      List.drop_left' size, rest]
    rfl

/-- Behind whole pieces, the others are cut as if they stood alone. -/
theorem pieces_append {α : Type _} {n : Nat} {l : List α} (whole : l.length % n = 0) (rest : List α) :
    pieces n (l ++ rest) = pieces n l ++ pieces n rest := by
  fun_induction pieces n l with
  | case1 l stop =>
    rcases stop with zero | none
    · obtain rfl : l = [] := by
        rw [zero, Nat.mod_zero] at whole
        exact List.length_eq_zero_iff.1 whole
      rfl
    · rw [none]
      rfl
  | case2 l more ih =>
    obtain ⟨pos, some⟩ := not_or.1 more
    have positive : l.length ≠ 0 := fun none => some (List.length_eq_zero_iff.1 none)
    have long : n ≤ l.length := Nat.le_of_not_lt fun short => positive (by rwa [Nat.mod_eq_of_lt short] at whole)
    have behind : (l.drop n).length % n = 0 := by
      rwa [List.length_drop, ← Nat.mod_eq_sub_mod long]
    rw [pieces, if_neg (by simp [pos, some]), List.take_append_of_le_length long, List.drop_append_of_le_length long,
      ih behind, List.cons_append]

/-- Pieces that are cut so are the ones of their bytes. -/
theorem cut_flatten {n : Nat} {full : List Bytes} {last : Bytes} (isCut : IsCut n full last) :
    cut n (full.flatten ++ last) = full ++ [last] := by
  by_cases none : last = []
  · rw [isCut.alone none, none]
    rfl
  · rw [cut, if_neg (by simp [none]), pieces_flatten isCut.full_length isCut.last_length none]

theorem exists_pieces {n : Nat} (pos : 0 < n) {bs : Bytes} (some : bs ≠ []) :
    ∃ full last, pieces n bs = full ++ [last] ∧ (∀ piece ∈ full, piece.length = n) ∧ last.length ≤ n ∧ last ≠ [] := by
  fun_induction pieces n bs with
  | case1 bs stop =>
    rcases stop with zero | none
    · omega
    · exact absurd none some
  | case2 bs more ih =>
    by_cases short : bs.drop n = []
    · refine ⟨[], bs.take n, ?_, List.forall_mem_nil _, List.length_take_le n bs, ?_⟩
      · rw [short, pieces, if_pos (.inr rfl)]
        rfl
      · intro none
        exact (List.take_eq_nil_iff.1 none).elim (by omega) some
    · obtain ⟨full, last, same, full_length, last_length, tail⟩ := ih short
      have long : n < bs.length := by simpa [List.drop_eq_nil_iff] using short
      have first : (bs.take n).length = n := List.length_take_of_le (Nat.le_of_lt long)
      exact ⟨bs.take n :: full, last, by rw [same]; rfl, List.forall_mem_cons.2 ⟨first, full_length⟩, last_length, tail⟩

/-- Every byte string is cut in this way. -/
theorem exists_cut {n : Nat} (pos : 0 < n) (bs : Bytes) :
    ∃ full last, cut n bs = full ++ [last] ∧ IsCut n full last ∧ bs = full.flatten ++ last := by
  by_cases none : bs = []
  · exact ⟨[], [], by rw [cut, if_pos none]; rfl, .nil n, by simp [none]⟩
  · obtain ⟨full, last, same, full_length, last_length, some⟩ := exists_pieces pos none
    refine ⟨full, last, by rw [cut, if_neg none, same], ⟨full_length, last_length, fun e => absurd e some⟩, ?_⟩
    have whole := flatten_pieces pos bs
    rw [same] at whole
    simpa using whole.symm

/-- Full pieces that come first in a byte string come first in its cut, before others if there is more. -/
theorem exists_cut_append {n : Nat} (pos : 0 < n) {full : List Bytes} {tail : Bytes}
    (full_length : ∀ piece ∈ full, piece.length = n) (more : tail = [] → full = []) :
    ∃ rest, rest ≠ [] ∧ cut n (full.flatten ++ tail) = full ++ rest := by
  obtain ⟨inner, last, _, isCut, rfl⟩ := exists_cut pos tail
  have longer : IsCut n (full ++ inner) last := by
    refine ⟨List.forall_mem_append.2 ⟨full_length, isCut.full_length⟩, isCut.last_length, fun none => ?_⟩
    have inner_nil := isCut.alone none
    rw [inner_nil, List.append_nil]
    exact more (by rw [inner_nil, none]; rfl)
  have pieces := cut_flatten longer
  rw [List.flatten_append, List.append_assoc, List.append_assoc] at pieces
  exact ⟨inner ++ [last], by simp, pieces⟩

theorem length_flatten_of_full {n : Nat} {full : List Bytes} (full_length : ∀ piece ∈ full, piece.length = n) :
    full.flatten.length = n * full.length := by
  rw [List.length_flatten, List.map_congr_left full_length, List.map_const', List.sum_replicate_nat, Nat.mul_comm]

theorem length_cut_flatten {n : Nat} {full : List Bytes} {last : Bytes} (isCut : IsCut n full last) :
    (full.flatten ++ last).length = n * full.length + last.length := by
  rw [List.length_append, length_flatten_of_full isCut.full_length]

end AgeCrypt
