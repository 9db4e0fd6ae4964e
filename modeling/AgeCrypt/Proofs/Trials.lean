import AgeCrypt.Proofs.Unlocking

/-!
# Trying identities

The first stanza that is for an identity which tries each decides what the identity gives, and it gives up only if none
is (`Identity.givesUp_iff`). Main statement: the first identity that does not give up decides whether a file is unlocked,
as if it were the only one. If all give up, the failures of all of them are reported in their order
(`LockedFile.unlock_decided`).
-/

namespace AgeCrypt

namespace Identity
variable {identity : Identity} {stanzas : List Stanza}

/-- An identity that does not give up gives a file key, or a reason to stop. -/
theorem fatal_or_ok_of_not_givesUp (decides : ¬ identity.GivesUp stanzas) :
    (∃ e, identity.unwrapAll stanzas = .error (.fatal e)) ∨ ∃ key, identity.unwrapAll stanzas = .ok key := by
  cases answer : identity.unwrapAll stanzas with
  | ok key => exact .inr ⟨key, rfl⟩
  | error failure =>
    cases failure with
    | fatal e => exact .inl ⟨e, rfl⟩
    | recovered e => exact absurd ⟨e, answer⟩ decides

/-- All of some identities give up, or there is a first one that does not. -/
theorem givesUp_or_first (identities : List Identity) (stanzas : List Stanza) :
    (∀ i ∈ identities, i.GivesUp stanzas) ∨
    ∃ before identity after, identities = before ++ identity :: after ∧ (∀ i ∈ before, i.GivesUp stanzas) ∧
      ¬ identity.GivesUp stanzas := by
  induction identities with
  | nil => exact .inl (List.forall_mem_nil _)
  | cons first identities ih =>
    by_cases gives : first.GivesUp stanzas
    · rcases ih with all | ⟨before, identity, after, rfl, earlier, decides⟩
      · exact .inl (List.forall_mem_cons.2 ⟨gives, all⟩)
      · exact .inr ⟨first :: before, identity, after, rfl, List.forall_mem_cons.2 ⟨gives, earlier⟩, decides⟩
    · exact .inr ⟨[], first, identities, rfl, List.forall_mem_nil _, gives⟩

end Identity

namespace LockedFile

section
variable {stanzas : List Stanza} {identities before : List Identity} {identity : Identity}

/-- If all identities give up, there is one failure for each. -/
theorem tryFrom_of_all {reasons : List DecryptError} (give : Identity.GiveUpFor identities stanzas reasons) (index : Nat)
    (failures : List DecryptError) :
    (tryFrom stanzas index failures identities).1 = .error (noneLeft (failures ++ reasons)) := by
  have tried := tryFrom_of_giveUpFor give index failures []
  rw [List.append_nil] at tried
  rw [tried]
  rfl

/-- An identity that does not give up decides, whatever failed before it and whatever comes behind it. -/
theorem tryFrom_of_decides (decides : ¬ identity.GivesUp stanzas) (index : Nat) (failures : List DecryptError)
    (after : List Identity) :
    (tryFrom stanzas index failures (identity :: after)).1 = (identity.unwrapAll stanzas).mapError UnwrapError.cause := by
  rcases Identity.fatal_or_ok_of_not_givesUp decides with ⟨e, answer⟩ | ⟨key, answer⟩
  · rw [tryFrom, answer]
    rfl
  · rw [tryFrom, answer]
    rfl

/-- Identities that give up change nothing about what the next one gives. -/
theorem tryFrom_of_first (earlier : ∀ i ∈ before, i.GivesUp stanzas) (decides : ¬ identity.GivesUp stanzas) (index : Nat)
    (failures : List DecryptError) (after : List Identity) :
    (tryFrom stanzas index failures (before ++ identity :: after)).1 =
      (identity.unwrapAll stanzas).mapError UnwrapError.cause := by
  obtain ⟨reasons, give⟩ := Identity.exists_giveUpFor earlier
  rw [tryFrom_of_giveUpFor give]
  exact tryFrom_of_decides decides _ _ after

end

variable {ρ : Type} [Reader ρ] (f : LockedFile ρ)

omit [Reader ρ] in
/-- The file key that is found decides together with the MAC. -/
theorem unlock_fst (identities : List Identity) :
    (f.unlock identities).1 = (tryFrom f.header.recipients 0 [] identities).1.bind f.unlockWith := by
  unfold unlock findKey
  cases tryFrom f.header.recipients 0 [] identities with | mk found events => ?_
  cases found <;> rfl

omit [Reader ρ] in
/-- The first identity that does not give up decides. Without identities, this is what is reported, and if all give up,
    there is one failure for each of them in their order. Otherwise a file is unlocked, or is not, as with that identity
    alone: its reason to stop is reported, or its file key is used if the MAC is right under it. For an identity that
    tries each stanza, as all do that only say how to unwrap one, the first one that is for it decides, and it gives up
    only if none is. -/
theorem unlock_decided :
    (f.unlock []).1 = .error .noIdentities ∧
    (∀ identities, identities ≠ [] → (∀ i ∈ identities, Identity.GivesUp i f.header.recipients) →
      ∃ failures, (f.unlock identities).1 = .error (.noneMatched failures) ∧
        identities.map (Identity.unwrapAll · f.header.recipients) = failures.map fun e => .error (.recovered e)) ∧
    (∀ before identity after, (∀ i ∈ before, Identity.GivesUp i f.header.recipients) →
      ¬ Identity.GivesUp identity f.header.recipients →
      (f.unlock (before ++ identity :: after)).1 = (f.unlock [identity]).1 ∧
      ((∃ e, identity.unwrapAll f.header.recipients = .error (.fatal e) ∧ (f.unlock [identity]).1 = .error e) ∨
        ∃ key, identity.unwrapAll f.header.recipients = .ok key ∧ (f.unlock [identity]).1 = f.unlockWith key)) ∧
    (∀ identities, (∀ i ∈ identities, Identity.GivesUp i f.header.recipients) ∨
      ∃ before identity after, identities = before ++ identity :: after ∧
        (∀ i ∈ before, Identity.GivesUp i f.header.recipients) ∧ ¬ Identity.GivesUp identity f.header.recipients) ∧
    (∀ unwrap, Identity.TriesEach { unwrap }) ∧
    (∀ identity earlier stanza later answer, Identity.TriesEach identity →
      (∀ s ∈ earlier, identity.unwrap s = none) → identity.unwrap stanza = some answer →
      identity.unwrapAll (earlier ++ stanza :: later) = answer.mapError .fatal) ∧
    ∀ identity stanzas, Identity.TriesEach identity →
      (identity.GivesUp stanzas ↔ ∀ s ∈ stanzas, identity.unwrap s = none) := by
  refine ⟨rfl, ?_, ?_, fun identities => Identity.givesUp_or_first identities _, Identity.triesEach_mk, ?_,
    fun _ _ each => Identity.givesUp_iff each⟩
  · intro identities some all
    obtain ⟨failures, give⟩ := Identity.exists_giveUpFor all
    refine ⟨failures, ?_, give⟩
    have reported : noneLeft failures = .noneMatched failures := by
      have same := congrArg List.length give
      rw [List.length_map, List.length_map] at same
      have more : failures ≠ [] := List.ne_nil_of_length_pos (same ▸ List.length_pos_iff.2 some)
      simp [noneLeft, more]
    rw [unlock_fst, tryFrom_of_all give, List.nil_append, reported]
    rfl
  · intro before identity after earlier decides
    have alone := tryFrom_of_decides decides 0 [] []
    refine ⟨?_, ?_⟩
    · rw [unlock_fst, unlock_fst, tryFrom_of_first earlier decides, alone]
    · rw [unlock_fst, alone]
      rcases Identity.fatal_or_ok_of_not_givesUp decides with ⟨e, answer⟩ | ⟨key, answer⟩
      · rw [answer]
        exact .inl ⟨e, rfl, rfl⟩
      · rw [answer]
        exact .inr ⟨key, rfl, rfl⟩
  · intro identity earlier stanza later answer each others answers
    rw [each]
    exact Identity.unwrapFirst_of_first others answers later

/-- Behind an identity for other files, the owner of a file unlocks it, and one who has a broken key stops that. -/
theorem unlock_decided_three :
    let key : FileKey := .zeros 16
    let f : LockedFile Source := ⟨.sign key [⟨"other", [], []⟩, ⟨"tag", [], []⟩], .zeros 16, Source.ofBytes []⟩
    let stranger : Identity := { unwrap := fun _ => none }
    let owner : Identity := { unwrap := fun s => if s.tag = "tag" then some (.ok key) else none }
    let broken : Identity := { unwrap := fun s => if s.tag = "tag" then some (.error .lowOrderPoint) else none }
    (f.unlock [stranger, owner, broken]).1 = .ok (.start (.chaCha20Poly1305 (key.payloadKey (.zeros 16))) f.input) ∧
    (f.unlock [stranger, broken, owner]).1 = .error .lowOrderPoint ∧
    (f.unlock [stranger, stranger]).1 = .error (.noneMatched [.noMatch, .noMatch]) := by
  intro key f stranger owner broken
  have gives : stranger.GivesUp f.header.recipients := ⟨.noMatch, rfl⟩
  have before : ∀ i ∈ [stranger], i.GivesUp f.header.recipients := List.forall_mem_singleton.2 gives
  have both : ∀ i ∈ [stranger, stranger], i.GivesUp f.header.recipients := List.forall_mem_cons.2 ⟨gives, before⟩
  have opens : owner.unwrapAll f.header.recipients = .ok key := rfl
  have stops : broken.unwrapAll f.header.recipients = .error (.fatal .lowOrderPoint) := rfl
  have ownerDecides : ¬ owner.GivesUp f.header.recipients := fun ⟨_, fails⟩ => by rw [opens] at fails; cases fails
  have brokenDecides : ¬ broken.GivesUp f.header.recipients := fun ⟨_, fails⟩ => by rw [stops] at fails; cases fails
  have right : f.header.hasMac key = true := decide_eq_true rfl
  obtain ⟨_, all, first, _⟩ := unlock_decided f
  refine ⟨?_, ?_, ?_⟩
  · obtain ⟨same, cases⟩ := first [stranger] owner [broken] before ownerDecides
    rcases cases with ⟨e, fails, _⟩ | ⟨found, unwraps, unlocks⟩
    · rw [opens] at fails
      cases fails
    · rw [opens] at unwraps
      cases unwraps
      exact same.trans (unlocks.trans (if_pos right))
  · obtain ⟨same, cases⟩ := first [stranger] broken [owner] before brokenDecides
    rcases cases with ⟨e, fails, unlocks⟩ | ⟨found, unwraps, _⟩
    · rw [stops] at fails
      cases fails
      exact same.trans unlocks
    · rw [stops] at unwraps
      cases unwraps
  · obtain ⟨failures, unlocks, each⟩ := all [stranger, stranger] (List.cons_ne_nil _ _) both
    have reports : failures = [.noMatch, .noMatch] :=
      (List.map_inj_right fun e e' same => by cases same; rfl).1 each.symm
    exact reports ▸ unlocks

end LockedFile

end AgeCrypt
