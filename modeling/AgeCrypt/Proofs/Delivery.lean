import AgeCrypt.Channel.Source

/-!
# What readers deliver

A reader is described by the bytes that it still hands out and by what comes behind them: the end of the input,
or a failure. How the bytes are cut into calls and how often a call is interrupted does not show in this
description, and every loop over a reader is determined by it (`fetch_of_delivers`, `drain_of_delivers`,
`readExactly_of_delivers`). A source delivers its bytes up to where it fails (`Source.delivers`).
-/

namespace AgeCrypt

namespace Reader
variable {ρ : Type} [Reader ρ] {stop? : Option ChannelError} {r r' : ρ} {rest : Bytes}

/-- How a call for `n` bytes is answered while `rest` is left and `stop?` comes behind it: by the next bytes, of
    which there are none only at the end, or by a failure. `next` holds of the reader behind the call, unless it
    has failed for good. -/
def Answers (next : ρ → Bytes → Prop) (stop? : Option ChannelError) (n : Nat) (rest : Bytes) :
    Except ChannelError Bytes × ρ → Prop
  | (.ok bs, r) => ∃ rest', rest = bs ++ rest' ∧ next r rest' ∧ (bs = [] → n ≠ 0 → rest = [] ∧ stop? = none)
  | (.error e, r) =>
    (e.isInterruption = true ∧ next r rest) ∨ (e.isInterruption = false ∧ rest = [] ∧ stop? = some e)

omit [Reader ρ] in
theorem Answers.imp {next next' : ρ → Bytes → Prop} {n : Nat} {answer : Except ChannelError Bytes × ρ}
    (sub : ∀ r rest, next r rest → next' r rest) (answers : Answers next stop? n rest answer) :
    Answers next' stop? n rest answer := by
  obtain ⟨result, r⟩ := answer
  cases result with
  | ok bs =>
    obtain ⟨rest', cut, holds, ended⟩ := answers
    exact ⟨rest', cut, sub r rest' holds, ended⟩
  | error e =>
    rcases answers with ⟨interrupted, holds⟩ | failed
    · exact .inl ⟨interrupted, sub r rest holds⟩
    · exact .inr failed

omit [Reader ρ] in
/-- Bytes that are ready answer a call, as many of them as it asks for. -/
theorem answers_take {next : ρ → Bytes → Prop} {n : Nat} {ready tail : Bytes} (some : ready ≠ [])
    (left : next r (ready.drop n ++ tail)) : Answers next stop? n (ready ++ tail) (.ok (ready.take n), r) := by
  refine ⟨ready.drop n ++ tail, ?_, left, fun none asked => ?_⟩
  · rw [← List.append_assoc, List.take_append_drop]
  · exact absurd ((List.take_eq_nil_iff.1 none).resolve_left asked) some

/-- The reader hands out `rest`, and behind it comes the failure `stop?`, or the end of the input. -/
def Delivers (stop? : Option ChannelError) (r : ρ) (rest : Bytes) : Prop :=
  ∃ next : ρ → Bytes → Prop, (∀ r rest n, next r rest → Answers next stop? n rest (read r n)) ∧ next r rest

theorem delivers_read (delivers : Delivers stop? r rest) (n : Nat) :
    Answers (Delivers stop?) stop? n rest (read r n) := by
  obtain ⟨next, step, holds⟩ := delivers
  exact (step r rest n holds).imp fun r rest holds => ⟨next, step, holds⟩

/-- A repeated call is answered by the next bytes, or fails at the end. -/
theorem retry_of_delivers (delivers : Delivers stop? r rest) (n : Nat) :
    (∃ bs r' rest', retry r n = (.ok bs, r') ∧ rest = bs ++ rest' ∧ Delivers stop? r' rest' ∧
      (bs = [] → n ≠ 0 → rest = [] ∧ stop? = none)) ∨
    (∃ e r', retry r n = (.error e, r') ∧ rest = [] ∧ stop? = some e) := by
  fun_induction retry r n with
  | case1 r bs r' step =>
    have answers := delivers_read delivers n
    rw [step] at answers
    obtain ⟨rest', cut, holds, ended⟩ := answers
    exact .inl ⟨bs, r', rest', rfl, cut, holds, ended⟩
  | case2 r e r' step again ih =>
    have answers := delivers_read delivers n
    rw [step] at answers
    rcases answers with ⟨_, holds⟩ | ⟨final, _, _⟩
    · exact ih holds
    · rw [again] at final
      cases final
  | case3 r e r' step final =>
    have answers := delivers_read delivers n
    rw [step] at answers
    rcases answers with ⟨interrupted, _⟩ | ⟨_, none, stops⟩
    · exact absurd interrupted final
    · exact .inr ⟨e, r', rfl, none, stops⟩

theorem retry_ok_of_delivers (delivers : Delivers stop? r rest) {n : Nat} {bs : Bytes}
    (step : retry r n = (.ok bs, r')) :
    ∃ rest', rest = bs ++ rest' ∧ Delivers stop? r' rest' ∧ (bs = [] → n ≠ 0 → rest = [] ∧ stop? = none) := by
  rcases retry_of_delivers delivers n with ⟨bs₁, r₁, rest', ok, left⟩ | ⟨e, r₁, fails, _⟩
  · rw [step] at ok
    cases ok
    exact ⟨rest', left⟩
  · rw [step] at fails
    cases fails

theorem retry_error_of_delivers (delivers : Delivers stop? r rest) {n : Nat} {e : ChannelError}
    (step : retry r n = (.error e, r')) : rest = [] ∧ stop? = some e := by
  rcases retry_of_delivers delivers n with ⟨bs, r₁, rest', ok, _⟩ | ⟨e₁, r₁, fails, ended⟩
  · rw [step] at ok
    cases ok
  · rw [step] at fails
    cases fails
    exact ended

theorem fetchAfter_of_delivers (before : Array UInt8) (delivers : Delivers stop? r rest) (n : Nat) :
    (∃ r', fetchAfter before r n = ⟨before.toList ++ rest.take n, none, r'⟩ ∧ Delivers stop? r' (rest.drop n) ∧
      (n ≤ rest.length ∨ stop? = none)) ∨
    (∃ e r', fetchAfter before r n = ⟨before.toList ++ rest, some e, r'⟩ ∧ rest.length < n ∧ stop? = some e) := by
  fun_induction fetchAfter before r n generalizing rest with
  | case1 before r => exact .inl ⟨r, by simp, by simpa using delivers, .inl (Nat.zero_le _)⟩
  | case2 before r n more e r' step =>
    obtain ⟨rfl, stops⟩ := retry_error_of_delivers delivers step
    exact .inr ⟨e, r', by simp, Nat.pos_of_ne_zero more, stops⟩
  | case3 before r n more r' step =>
    obtain ⟨rest', cut, holds, ended⟩ := retry_ok_of_delivers delivers step
    obtain ⟨rfl, clean⟩ := ended rfl more
    obtain rfl : rest' = [] := cut.symm
    exact .inl ⟨r', by simp, by simpa using holds, .inr clean⟩
  | case4 before r n more b bs r' step ih =>
    have le := (retry_ok step).1
    obtain ⟨rest', rfl, holds, _⟩ := retry_ok_of_delivers delivers step
    rcases ih holds with ⟨r₂, same, tail, enough⟩ | ⟨e, r₂, same, short, stops⟩
    · refine .inl ⟨r₂, ?_, ?_, enough.imp_left ?_⟩
      · rw [same, List.take_append, List.take_of_length_le le]
        simp
      · rwa [List.drop_append, List.drop_eq_nil_of_le le, List.nil_append]
      · intro enough
        simp only [List.length_append]
        omega
    · refine .inr ⟨e, r₂, ?_, ?_, stops⟩
      · rw [same]
        simp
      · simp only [List.length_append]
        omega

/-- Fetching gives the next `n` bytes, or fails when the failure comes before there are as many. -/
theorem fetch_of_delivers (delivers : Delivers stop? r rest) (n : Nat) :
    (∃ r', fetch r n = ⟨rest.take n, none, r'⟩ ∧ Delivers stop? r' (rest.drop n) ∧
      (n ≤ rest.length ∨ stop? = none)) ∨
    (∃ e r', fetch r n = ⟨rest, some e, r'⟩ ∧ rest.length < n ∧ stop? = some e) :=
  fetchAfter_of_delivers #[] delivers n

theorem drainAfter_of_delivers (before : Array UInt8) (delivers : Delivers stop? r rest) :
    ∃ r', drainAfter before r = ⟨before.toList ++ rest, stop?, r'⟩ := by
  fun_induction drainAfter before r generalizing rest with
  | case1 before r e r' step =>
    obtain ⟨rfl, stops⟩ := retry_error_of_delivers delivers step
    exact ⟨r', by simp [stops]⟩
  | case2 before r r' step =>
    obtain ⟨_, _, _, ended⟩ := retry_ok_of_delivers delivers step
    obtain ⟨rfl, clean⟩ := ended rfl (by decide)
    exact ⟨r', by simp [clean]⟩
  | case3 before r b bs r' step ih =>
    obtain ⟨rest', rfl, holds, _⟩ := retry_ok_of_delivers delivers step
    obtain ⟨r₂, same⟩ := ih holds
    refine ⟨r₂, ?_⟩
    rw [same, Array.toList_appendList, List.append_assoc]

/-- Draining gives all bytes and ends as the reader does. -/
theorem drain_of_delivers (delivers : Delivers stop? r rest) : ∃ r', drain r = ⟨rest, stop?, r'⟩ :=
  drainAfter_of_delivers #[] delivers

theorem readExactly_of_delivers {n : Nat} (delivers : Delivers stop? r rest) (enough : n ≤ rest.length) :
    ∃ r', readExactly r n = (.ok ⟨rest.take n, List.length_take_of_le enough⟩, r') ∧
      Delivers stop? r' (rest.drop n) := by
  rcases fetch_of_delivers delivers n with ⟨r', same, tail, _⟩ | ⟨e, r', _, short, _⟩
  · refine ⟨r', ?_, tail⟩
    have block := Block.ofBytes?_bytes (⟨rest.take n, List.length_take_of_le enough⟩ : Block n)
    simp only [readExactly, same]
    rw [block]
  · omega

/-- When there are too few bytes, the reader's failure is that of reading exactly `n`. -/
theorem readExactly_of_short {n : Nat} (delivers : Delivers stop? r rest) (short : rest.length < n) :
    ∃ r', readExactly r n = (.error (stop?.getD .endOfInput), r') := by
  rcases fetch_of_delivers delivers n with ⟨r', same, _, enough⟩ | ⟨e, r', same, _, stops⟩
  · have clean : stop? = none := enough.resolve_left (by omega)
    have none : Block.ofBytes? n (rest.take n) = none := by
      unfold Block.ofBytes?
      rw [dif_neg]
      simp only [List.length_take]
      omega
    refine ⟨r', ?_⟩
    simp only [readExactly, same]
    rw [none, clean, Option.getD_none]
  · refine ⟨r', ?_⟩
    simp only [readExactly, same]
    rw [stops, Option.getD_some]

/-- The answers to calls for so many bytes each, one after the other, also behind a failure. -/
def readEach (r : ρ) : List Nat → List (Except ChannelError Bytes) × ρ
  | [] => ([], r)
  | n :: ns =>
    let (answer, r') := read r n
    let (answers, r'') := readEach r' ns
    (answer :: answers, r'')

theorem readEach_cons {r r' : ρ} {n : Nat} {answer : Except ChannelError Bytes} (step : read r n = (answer, r'))
    (sizes : List Nat) : readEach r (n :: sizes) = (answer :: (readEach r' sizes).1, (readEach r' sizes).2) := by
  rw [readEach, step]

/-- The bytes of some answers. -/
def returned (answers : List (Except ChannelError Bytes)) : Bytes :=
  answers.flatMap fun answer => answer.toOption.getD []

theorem returned_cons (answer : Except ChannelError Bytes) (answers : List (Except ChannelError Bytes)) :
    returned (answer :: answers) = answer.toOption.getD [] ++ returned answers := List.flatMap_cons

end Reader

namespace Source

/-- The bytes that come before a source fails. -/
def available (s : Source) : Bytes := s.failsAfter?.elim s.rest s.rest.take

/-- How a source ends: by failing, if that comes before its bytes are all handed out. -/
def stop? (s : Source) : Option ChannelError :=
  if s.failsAfter?.any (· ≤ s.rest.length) then some failure else none

theorem atMost_pos {n : Nat} {bound? : Option Nat} (asked : n ≠ 0) (bounded : bound? ≠ some 0) :
    atMost n bound? ≠ 0 := by
  cases bound? with
  | none => exact asked
  | some bound =>
    have : bound ≠ 0 := fun empty => bounded (by rw [empty])
    simp only [atMost, Option.elim_some]
    omega

theorem atMost_le_bound {n bound : Nat} : atMost n (some bound) ≤ bound := Nat.min_le_right n bound

/-- A source behind a call that handed out at most `m` bytes. -/
def behind (s : Source) (m : Nat) : Source :=
  { rest := s.rest.drop (s.rest.take m).length
    portion? := s.portion?
    failsAfter? := s.failsAfter?.map (· - (s.rest.take m).length)
    interruptions := s.interruptions.next.2 }

theorem available_behind (s : Source) {m : Nat} (le : ∀ k, s.failsAfter? = some k → m ≤ k) :
    s.available = s.rest.take m ++ (s.behind m).available := by
  have cut : s.rest = s.rest.take m ++ s.rest.drop (s.rest.take m).length :=
    (List.prefix_iff_eq_append.1 (List.take_prefix m s.rest)).symm
  cases fails : s.failsAfter? with
  | none => simpa [available, behind, fails] using cut
  | some k =>
    have size := le k fails
    have short : (s.rest.take m).length ≤ k := by
      simp only [List.length_take]
      omega
    simp only [available, behind, fails, Option.elim_some, Option.map_some]
    conv => lhs; rw [cut, List.take_append, List.take_of_length_le short]

theorem stop?_behind (s : Source) {m : Nat} (le : ∀ k, s.failsAfter? = some k → m ≤ k) :
    (s.behind m).stop? = s.stop? := by
  cases fails : s.failsAfter? with
  | none => simp [stop?, behind, fails]
  | some k =>
    have size := le k fails
    have same : k - min m s.rest.length ≤ s.rest.length - min m s.rest.length ↔ k ≤ s.rest.length := by omega
    simp [stop?, behind, fails, same]

/-- A source that hands out something in each call delivers its bytes up to where it fails. -/
theorem delivers (s : Source) (portions : s.portion? ≠ some 0) : Reader.Delivers s.stop? s s.available := by
  refine ⟨fun t rest => t.portion? ≠ some 0 ∧ rest = t.available ∧ s.stop? = t.stop?, ?_, portions, rfl, rfl⟩
  rintro t rest n ⟨portions, rfl, same⟩
  show Reader.Answers _ _ _ _ (t.read n)
  rw [same]
  by_cases interrupted : t.interruptions.next.1 = true
  · rw [Source.read, if_pos interrupted]
    exact .inl ⟨rfl, portions, rfl, rfl⟩
  by_cases fails : t.failsAfter? = some 0
  · rw [Source.read, if_neg interrupted, if_pos fails]
    exact .inr ⟨rfl, by simp [available, fails], by simp [stop?, fails]⟩
  · have le : ∀ k, t.failsAfter? = some k → atMost (atMost n t.portion?) t.failsAfter? ≤ k := by
      intro k at_k
      rw [at_k]
      exact atMost_le_bound
    rw [Source.read, if_neg interrupted, if_neg fails]
    refine ⟨_, available_behind t le, ⟨portions, rfl, (stop?_behind t le).symm⟩, ?_⟩
    intro empty asked
    have positive := atMost_pos (atMost_pos asked portions) fails
    have ended : t.rest = [] := (List.take_eq_nil_iff.1 empty).resolve_left positive
    cases bound : t.failsAfter? with
    | none => simp [available, stop?, bound, ended]
    | some k =>
      have : k ≠ 0 := by
        rintro rfl
        exact fails bound
      simp [available, stop?, bound, ended, this]

theorem delivers_ofBytes (bs : Bytes) : Reader.Delivers none (ofBytes bs) bs :=
  delivers (ofBytes bs) (by simp [ofBytes])

end Source

end AgeCrypt
