import AgeCrypt.Proofs.Wrapping

/-!
# What a stanza of a passphrase may cost

A stanza of a passphrase says itself how much work scrypt has to do for it. An identity does that work only for a
numeral of at most its maximum, and all other arguments are rejected before scrypt runs, alike for every passphrase.
The runs of scrypt are noted by a function in its place that unwrapping is given (`Passphrase.unwrapBy`), and noting
them changes nothing else (`Passphrase.run_noting_of_parameters`).

Main statement: `Passphrase.work_bounded`.
-/

namespace AgeCrypt

namespace Passphrase

/-- Runs scrypt and notes with what. -/
def noting (run : Scrypt.Run) : StateM (List Scrypt.Run) (Option (Block 32)) := do
  modify fun runs => runs ++ [run]
  pure (Scrypt.derive? run)

/-- The runs of scrypt when a stanza is unwrapped. -/
def runs (passphrase : String) (max : WorkFactor) (stanza : Stanza) : List Scrypt.Run :=
  ((unwrapBy noting passphrase max stanza).run []).2

/-- A stanza as it is read: the salt, an argument for the work factor, and a body. -/
def stanzaOf (salt : Block 16) (numeral : String) (body : Bytes) : Stanza :=
  ⟨tag, [Base64.encodeText salt.bytes, numeral], body⟩

section
variable {max : WorkFactor} {salt : Block 16} {numeral : String} {body : Bytes} {exponent : Nat}

theorem parameters_stanzaOf : parameters max (stanzaOf salt numeral body) =
    match WorkFactor.parse numeral with
    | none => .error .workFactor
    | some exponent =>
      if max.exponent < exponent then .error (.excessiveWork exponent max.exponent)
      else if body.length ≠ wrappedLength then .error .wrappedKeyLength
      else .ok (salt, exponent) := by
  simp only [parameters, stanzaOf, blockOf?_encodeText]
  rfl

theorem parameters_of_excessive (numbered : numeral = toString exponent) (excessive : max.exponent < exponent)
    (le : exponent ≤ 255) :
    parameters max (stanzaOf salt numeral body) = .error (.excessiveWork exponent max.exponent) := by
  have parses := WorkFactor.parse_eq_some_iff.2 ⟨numbered, Nat.le_trans max.pos (Nat.le_of_lt excessive), le⟩
  rw [parameters_stanzaOf, parses]
  exact if_pos excessive

theorem parameters_of_not_numeral (other : ∀ exponent, 1 ≤ exponent → exponent ≤ 255 → numeral ≠ toString exponent) :
    parameters max (stanzaOf salt numeral body) = .error .workFactor := by
  have fails : WorkFactor.parse numeral = none := by
    refine Option.eq_none_iff_forall_ne_some.2 fun exponent parses => ?_
    obtain ⟨numbered, pos, le⟩ := WorkFactor.parse_eq_some_iff.1 parses
    exact other exponent pos le numbered
  rw [parameters_stanzaOf, fails]

theorem parameters_of_numeral (numbered : numeral = toString exponent) (pos : 1 ≤ exponent) (le : exponent ≤ max.exponent) :
    parameters max (stanzaOf salt numeral body) =
      if body.length ≠ wrappedLength then .error .wrappedKeyLength else .ok (salt, exponent) := by
  have small : exponent ≤ 255 := Nat.le_trans (Nat.le_trans le max.le) (by decide)
  rw [parameters_stanzaOf, WorkFactor.parse_eq_some_iff.2 ⟨numbered, pos, small⟩]
  exact if_neg (Nat.not_lt.2 le)

theorem parameters_eq_ok_iff {salt' : Block 16} : parameters max (stanzaOf salt numeral body) = .ok (salt', exponent) ↔
    salt' = salt ∧ numeral = toString exponent ∧ 1 ≤ exponent ∧ exponent ≤ max.exponent ∧ body.length = wrappedLength := by
  constructor
  · intro runs
    obtain ⟨pos, le⟩ := bounds_of_parameters runs
    rw [parameters_stanzaOf] at runs
    split at runs
    · cases runs
    rename_i parsed
    split at runs
    · cases runs
    split at runs
    · cases runs
    · rename_i size
      cases runs
      exact ⟨rfl, (WorkFactor.parse_eq_some_iff.1 parsed).1, pos, le, Classical.not_not.1 size⟩
  · rintro ⟨rfl, numbered, pos, le, size⟩
    rw [parameters_of_numeral numbered pos le, if_neg (not_not_intro size)]

end

section
variable {max : WorkFactor} {stanza : Stanza} {salt : Block 16} {exponent : Nat} {passphrase : String}

theorem run_noting_of_refused {e : DecryptError} (passphrase : String) (own : stanza.tag = tag)
    (refused : parameters max stanza = .error e) (before : List Scrypt.Run) :
    (unwrapBy noting passphrase max stanza).run before = (unwrap passphrase max stanza, before) := by
  rw [unwrap_of_refused passphrase own refused, unwrapBy, if_neg (not_not_intro own), refused]
  rfl

/-- Noting the runs changes nothing else, and every run is noted. -/
theorem run_noting_of_parameters (passphrase : String) (own : stanza.tag = tag)
    (runs : parameters max stanza = .ok (salt, exponent)) (before : List Scrypt.Run) :
    (unwrapBy noting passphrase max stanza).run before =
      (unwrap passphrase max stanza, before ++ [runOf passphrase salt exponent]) := by
  rw [unwrap_of_parameters passphrase own runs, unwrapBy, if_neg (not_not_intro own), runs]
  dsimp only [noting, bind]
  rw [derive?_runOf passphrase runs]
  rfl

end

/-- What an identity spends on a stanza with a salt, and how it rejects the stanza without a run. -/
structure BoundsWork (max : WorkFactor) (salt : Block 16) (numeral : String) (body : Bytes) : Prop where
  /-- Noting the runs leaves the result as it is. -/
  noted : ∀ passphrase, ((unwrapBy noting passphrase max (stanzaOf salt numeral body)).run []).1 =
    (identity passphrase max).unwrap (stanzaOf salt numeral body)
  runs_iff : ∀ passphrase run, run ∈ runs passphrase max (stanzaOf salt numeral body) ↔
    ∃ n, numeral = toString n ∧ 1 ≤ n ∧ n ≤ max.exponent ∧ body.length = 32 ∧
      run = ⟨utf8 passphrase, utf8 "age-encryption.org/v1/scrypt" ++ salt.bytes, n⟩
  atMostOne : ∀ passphrase, (runs passphrase max (stanzaOf salt numeral body)).length ≤ 1
  accepted : ∀ passphrase, ∀ run ∈ runs passphrase max (stanzaOf salt numeral body), Scrypt.Accepts run.exponent
  excessive : ∀ n, numeral = toString n → max.exponent < n → n ≤ 255 → ∀ passphrase,
    (identity passphrase max).unwrap (stanzaOf salt numeral body) = some (.error (.excessiveWork n max.exponent))
  noNumeral : (∀ n, 1 ≤ n → n ≤ 255 → numeral ≠ toString n) → ∀ passphrase,
    (identity passphrase max).unwrap (stanzaOf salt numeral body) = some (.error .workFactor)
  wrongSize : ∀ n, numeral = toString n → 1 ≤ n → n ≤ max.exponent → body.length ≠ 32 → ∀ passphrase,
    (identity passphrase max).unwrap (stanzaOf salt numeral body) = some (.error .wrappedKeyLength)

theorem unwrap_of_error {max : WorkFactor} {salt : Block 16} {numeral : String} {body : Bytes} {e : DecryptError}
    (passphrase : String) (fails : parameters max (stanzaOf salt numeral body) = .error e) :
    (identity passphrase max).unwrap (stanzaOf salt numeral body) = some (.error e) := by
  have own : (stanzaOf salt numeral body).tag = tag := rfl
  exact unwrap_of_refused passphrase own fails

theorem runs_of_refused {stanza : Stanza} {max : WorkFactor} {e : DecryptError} (passphrase : String)
    (own : stanza.tag = tag) (refused : parameters max stanza = .error e) : runs passphrase max stanza = [] := by
  rw [runs, run_noting_of_refused passphrase own refused]

theorem runs_of_parameters {stanza : Stanza} {max : WorkFactor} {salt : Block 16} {exponent : Nat} (passphrase : String)
    (own : stanza.tag = tag) (found : parameters max stanza = .ok (salt, exponent)) :
    runs passphrase max stanza = [runOf passphrase salt exponent] := by
  rw [runs, run_noting_of_parameters passphrase own found, List.nil_append]

theorem mem_runs_iff {passphrase : String} {max : WorkFactor} {salt : Block 16} {numeral : String} {body : Bytes}
    {run : Scrypt.Run} : run ∈ runs passphrase max (stanzaOf salt numeral body) ↔
      ∃ n, numeral = toString n ∧ 1 ≤ n ∧ n ≤ max.exponent ∧ body.length = 32 ∧ run = runOf passphrase salt n := by
  constructor
  · intro member
    cases found : parameters max (stanzaOf salt numeral body) with
    | error e =>
      rw [runs_of_refused passphrase rfl found] at member
      cases member
    | ok parameters =>
      obtain ⟨salt', n⟩ := parameters
      rw [runs_of_parameters passphrase rfl found] at member
      obtain ⟨rfl, numbered, pos, le, size⟩ := parameters_eq_ok_iff.1 found
      exact ⟨n, numbered, pos, le, size, List.mem_singleton.1 member⟩
  · rintro ⟨n, numbered, pos, le, size, rfl⟩
    rw [runs_of_parameters passphrase rfl (parameters_eq_ok_iff.2 ⟨rfl, numbered, pos, le, size⟩)]
    exact List.mem_singleton_self _

theorem boundsWork (max : WorkFactor) (salt : Block 16) (numeral : String) (body : Bytes) :
    BoundsWork max salt numeral body where
  noted passphrase := by
    cases found : parameters max (stanzaOf salt numeral body) with
    | error e =>
      rw [run_noting_of_refused passphrase rfl found]
      rfl
    | ok parameters =>
      rw [run_noting_of_parameters passphrase rfl found]
      rfl
  runs_iff passphrase run := mem_runs_iff
  atMostOne passphrase := by
    cases found : parameters max (stanzaOf salt numeral body) with
    | error e =>
      rw [runs_of_refused passphrase rfl found]
      exact Nat.zero_le 1
    | ok parameters =>
      rw [runs_of_parameters passphrase rfl found]
      exact Nat.le_refl 1
  accepted passphrase run member := by
    obtain ⟨n, _, pos, le, _, rfl⟩ := mem_runs_iff.1 member
    exact Scrypt.accepts_of_le pos (Nat.le_trans le max.le)
  excessive n numbered excessive le passphrase :=
    unwrap_of_error passphrase (parameters_of_excessive numbered excessive le)
  noNumeral other passphrase := unwrap_of_error passphrase (parameters_of_not_numeral other)
  wrongSize n numbered pos le size passphrase := by
    refine unwrap_of_error passphrase ?_
    rw [parameters_of_numeral numbered pos le]
    exact if_pos size

/-- What was wrapped with a passphrase is unwrapped with it exactly if the work factor is not too high. -/
theorem unwrap_wrapWith_iff (salt : Block 16) (passphrase : String) (workFactor max : WorkFactor) (fileKey : FileKey) :
    (identity passphrase max).unwrap (wrapWith salt passphrase workFactor fileKey) = some (.ok fileKey) ↔
      workFactor.exponent ≤ max.exponent := by
  constructor
  · intro unwraps
    refine Nat.le_of_not_lt fun excessive => ?_
    have le : workFactor.exponent ≤ 255 := Nat.le_trans workFactor.le (by decide)
    have fails : (identity passphrase max).unwrap (wrapWith salt passphrase workFactor fileKey) =
        some (.error (.excessiveWork workFactor.exponent max.exponent)) :=
      unwrap_of_error passphrase (parameters_of_excessive rfl excessive le)
    rw [fails] at unwraps
    cases unwraps
  · exact fun le => unwrap_wrapWith salt passphrase le fileKey

theorem exponent_of_check {violation : Violation} {n : Nat} {workFactor : WorkFactor}
    (checked : WorkFactor.check violation n = .ok workFactor) : workFactor.exponent = n := by
  unfold WorkFactor.check at checked
  split at checked
  · cases checked
    rfl
  · cases checked

/-- The maximum of an identity bounds what every stanza costs, and decides whether the identity opens what a recipient with
    the same passphrase wrapped. -/
theorem work_bounded (max : WorkFactor) :
    (∀ passphrase stanza, unwrapBy (m := Id) Scrypt.derive? passphrase max stanza =
      (identity passphrase max).unwrap stanza) ∧
    (∀ salt numeral body, BoundsWork max salt numeral body) ∧
    ∀ passphrase violation n workFactor, WorkFactor.check violation n = .ok workFactor → ∀ randomness fileKey,
      ∃ stanza later, ((recipient passphrase workFactor).wrap fileKey).run randomness = (.ok ([stanza], .empty), later) ∧
        ((identity passphrase max).unwrap stanza = some (.ok fileKey) ↔ n ≤ max.exponent) := by
  refine ⟨fun _ _ => rfl, boundsWork max, ?_⟩
  intro passphrase violation n workFactor checked randomness fileKey
  obtain rfl := exponent_of_check checked
  exact ⟨wrapWith (randomness.peek 16) passphrase workFactor fileKey, _, rfl, unwrap_wrapWith_iff _ _ _ _ _⟩

/-- With a maximum of 4, a stanza for 5 is refused and one for `05` is malformed, one for 4 costs one run, and what a
    recipient with that work factor wrapped is opened. -/
theorem work_bounded_four :
    let max : WorkFactor := ⟨4, by decide, by decide⟩
    let body : Bytes := List.replicate 32 0
    (identity "p" max).unwrap (stanzaOf (.zeros 16) "5" body) = some (.error (.excessiveWork 5 4)) ∧
      (identity "p" max).unwrap (stanzaOf (.zeros 16) "05" body) = some (.error .workFactor) ∧
      runOf "p" (.zeros 16) 4 ∈ runs "p" max (stanzaOf (.zeros 16) "4" body) ∧
      (∃ stanza later, ((recipient "p" max).wrap (.zeros 16)).run ⟨fun _ => 0, 0⟩ = (.ok ([stanza], .empty), later) ∧
        ((identity "p" max).unwrap stanza = some (.ok (.zeros 16)) ↔ 4 ≤ 4)) := by
  intro max body
  obtain ⟨_, bounds, opens⟩ := work_bounded max
  refine ⟨(bounds _ _ _).excessive 5 (by decide) (by decide) (by decide) "p", ?_, ?_, ?_⟩
  · refine (bounds _ _ _).noNumeral (fun n pos le numbered => ?_) "p"
    have parses := WorkFactor.parse_eq_some_iff.2 ⟨numbered, pos, le⟩
    cases parses
  · exact ((bounds _ _ _).runs_iff "p" _).2 ⟨4, by decide, by decide, by decide, List.length_replicate, rfl⟩
  · exact opens "p" .workFactorRange 4 max rfl _ _

end Passphrase

end AgeCrypt
