import AgeCrypt.Proofs.LowOrder

/-!
# Which stanza an X25519 key takes

A stanza from which no ephemeral share can be read is for another kind of identity or malformed, and passed over
(`X25519.foreign_iff`). Of the others, a stanza decides if its body has another length than that of a wrapped file key, if
its share is of low order, or if its body opens (`X25519.unwrap_eq_some_iff`).

Main statement: stanzas that are passed over change nothing, wherever they stand, and what an identity gives is the answer of
the first stanza that decides (`X25519.unwrapAll_selects`).
-/

namespace AgeCrypt

theorem Base64.blockOf?_eq_some_iff {n : Nat} {s : String} {block : Block n} :
    blockOf? n s = some block ↔ s = encodeText block.bytes := by
  constructor
  · intro decodes
    rw [blockOf?] at decodes
    split at decodes
    · exact decodeBlock_eq_some_iff.1 decodes
    · cases decodes
  · rintro rfl
    exact blockOf?_encodeText block

/-- A body opens exactly if it is a file key wrapped under the key. -/
theorem unwrapUnder_eq_some_iff {key : Block 32} {body : Bytes} {fileKey : FileKey} :
    unwrapUnder key body = some fileKey ↔ body = wrapUnder key fileKey := by
  constructor
  · intro opens
    obtain ⟨message, decrypts, whole⟩ := Option.bind_eq_some_iff.1 opens
    obtain rfl := Block.ofBytes?_eq_some_iff.1 whole
    cases answer : decryptOnce key 16 body with
    | error e => simp [answer, Except.toOption] at decrypts
    | ok found =>
      simp only [answer, Except.toOption, Option.some.injEq] at decrypts
      rw [(decryptOnce_eq_ok_iff.1 answer).2, decrypts]
      rfl
  · rintro rfl
    exact unwrapUnder_wrapUnder key fileKey

namespace X25519
open Curve25519

/-- The ephemeral share stands in the only argument of a stanza, in unpadded Base64. -/
structure Carries (s : Stanza) (share : PublicKey) : Prop where
  tag : s.tag = tag
  args : s.args = [Base64.encodeText share.block.bytes]

/-- A stanza with another tag, with another number of arguments than one, or whose only argument is not the unpadded Base64
    of 32 bytes. -/
inductive Foreign (s : Stanza) : Prop
  | otherTag (other : s.tag ≠ tag)
  | otherCount (other : s.args.length ≠ 1)
  | otherArgument (arg : String) (single : s.args = [arg]) (other : ∀ block : Block 32, arg ≠ Base64.encodeText block.bytes)

theorem shareOf?_eq_some_iff {s : Stanza} {share : PublicKey} : shareOf? s = some share ↔ Carries s share := by
  obtain ⟨block⟩ := share
  constructor
  · intro found
    unfold shareOf? at found
    split at found
    · rename_i arg same single
      obtain ⟨block', decodes, same'⟩ := Option.map_eq_some_iff.1 found
      cases same'
      rw [Base64.blockOf?_eq_some_iff.1 decodes] at single
      exact ⟨of_decide_eq_true same, single⟩
    · cases found
  · rintro ⟨same, single⟩
    simp only [shareOf?, same, single, decide_true, blockOf?_encodeText, Option.map_some]

/-- The stanzas that carry no share. -/
theorem foreign_iff {s : Stanza} : Foreign s ↔ ∀ share, ¬ Carries s share := by
  constructor
  · rintro (other | other | ⟨arg, single, other⟩) share ⟨same, args⟩
    · exact other same
    · exact other (by rw [args]; rfl)
    · rw [single] at args
      exact other share.block (List.singleton_inj.1 args)
  · intro none
    by_cases same : s.tag = tag
    · by_cases single : s.args.length = 1
      · obtain ⟨arg, args⟩ := List.length_eq_one_iff.1 single
        refine .otherArgument arg args fun block spelled => none ⟨block⟩ ⟨same, ?_⟩
        rw [args, spelled]
      · exact .otherCount single
    · exact .otherTag same

/-- A stanza that decides what a secret key gives, and its answer. -/
inductive Decides (secret : SecretKey) (s : Stanza) : Except DecryptError FileKey → Prop
  | otherLength {share : PublicKey} (carries : Carries s share) (other : s.body.length ≠ 32) :
    Decides secret s (.error .wrappedKeyLength)
  | lowOrder {share : PublicKey} (carries : Carries s share) (length : s.body.length = 32)
    (low : coordinateOf share.block ∈ lowOrder) : Decides secret s (.error .lowOrderPoint)
  | opens {share : PublicKey} {fileKey : FileKey} (carries : Carries s share) (other : coordinateOf share.block ∉ lowOrder)
    (wrapped : s.body =
      wrapUnder (wrappingKey share secret.toPublic (sharedSecret secret.block share.block)) fileKey) :
    Decides secret s (.ok fileKey)

theorem unwrapWith_of_otherLength {body : Bytes} (other : body.length ≠ 32) (secret : SecretKey) (share : PublicKey) :
    unwrapWith secret share body = some (.error .wrappedKeyLength) := by
  rw [unwrapWith, if_pos (show body.length ≠ wrappedLength from other)]

theorem unwrapWith_of_contributory {body : Bytes} (length : body.length = 32) {secret : SecretKey} {share : PublicKey}
    (other : coordinateOf share.block ∉ lowOrder) : unwrapWith secret share body =
      (unwrapUnder (wrappingKey share secret.toPublic (sharedSecret secret.block share.block)) body).map .ok := by
  rw [unwrapWith, if_neg (not_not_intro (show body.length = wrappedLength from length))]
  dsimp only
  rw [(contributory_iff secret.block share.block).2 other]
  rfl

/-- A stanza is for a secret key exactly if it decides, and the answer is the one that it decides on. -/
theorem unwrap_eq_some_iff {secret : SecretKey} {s : Stanza} {answer : Except DecryptError FileKey} :
    (identity secret).unwrap s = some answer ↔ Decides secret s answer := by
  have step : (identity secret).unwrap s = some answer ↔
      ∃ share, Carries s share ∧ unwrapWith secret share s.body = some answer := by
    simp only [← shareOf?_eq_some_iff]
    exact Option.bind_eq_some_iff
  rw [step]
  constructor
  · rintro ⟨share, carries, unwraps⟩
    by_cases length : s.body.length = 32
    · by_cases low : coordinateOf share.block ∈ lowOrder
      · rw [unwrapWith_eq_lowOrderPoint_iff.2 ⟨length, low⟩] at unwraps
        cases unwraps
        exact .lowOrder carries length low
      · rw [unwrapWith_of_contributory length low] at unwraps
        obtain ⟨fileKey, opens, rfl⟩ := Option.map_eq_some_iff.1 unwraps
        exact .opens carries low (unwrapUnder_eq_some_iff.1 opens)
    · rw [unwrapWith_of_otherLength length] at unwraps
      cases unwraps
      exact .otherLength carries length
  · intro decides
    cases decides with
    | @otherLength share carries other => exact ⟨share, carries, unwrapWith_of_otherLength other secret share⟩
    | @lowOrder share carries length low => exact ⟨share, carries, unwrapWith_eq_lowOrderPoint_iff.2 ⟨length, low⟩⟩
    | @opens share fileKey carries other wrapped =>
      have length : s.body.length = 32 := by
        rw [wrapped]
        exact length_wrapUnder _ fileKey
      refine ⟨share, carries, ?_⟩
      rw [unwrapWith_of_contributory length other, unwrapUnder_eq_some_iff.2 wrapped]
      rfl

/-- A stanza that is for another key, or for another kind of identity. -/
def Undecided (secret : SecretKey) (s : Stanza) : Prop := ∀ answer, ¬ Decides secret s answer

theorem unwrap_eq_none_iff {secret : SecretKey} {s : Stanza} :
    (identity secret).unwrap s = none ↔ Undecided secret s := by
  simp only [Undecided, ← unwrap_eq_some_iff, Option.eq_none_iff_forall_ne_some, ne_eq]

theorem Foreign.undecided {s : Stanza} (foreign : Foreign s) (secret : SecretKey) : Undecided secret s := by
  intro answer decides
  cases decides with
  | otherLength carries => exact foreign_iff.1 foreign _ carries
  | lowOrder carries => exact foreign_iff.1 foreign _ carries
  | opens carries => exact foreign_iff.1 foreign _ carries

/-- Stanzas into which foreign ones are inserted and from which foreign ones are deleted. -/
inductive Edited : List Stanza → List Stanza → Prop
  | nil : Edited [] []
  | keep (s : Stanza) {before after : List Stanza} (rest : Edited before after) : Edited (s :: before) (s :: after)
  | insert {s : Stanza} (foreign : Foreign s) {before after : List Stanza} (rest : Edited before after) :
    Edited before (s :: after)
  | delete {s : Stanza} (foreign : Foreign s) {before after : List Stanza} (rest : Edited before after) :
    Edited (s :: before) after

theorem findSome?_edited {before after : List Stanza} (edited : Edited before after) (secret : SecretKey) :
    after.findSome? (identity secret).unwrap = before.findSome? (identity secret).unwrap := by
  induction edited with
  | nil => rfl
  | keep s _ ih => rw [List.findSome?_cons, List.findSome?_cons, ih]
  | insert foreign _ ih => rw [List.findSome?_cons, unwrap_eq_none_iff.2 (foreign.undecided secret), ih]
  | delete foreign _ ih => rw [List.findSome?_cons, unwrap_eq_none_iff.2 (foreign.undecided secret), ih]

/-- No stanza decides, or there is a first one that does. -/
theorem undecided_or_first (secret : SecretKey) (stanzas : List Stanza) :
    (∀ s ∈ stanzas, Undecided secret s) ∨
      ∃ earlier s later answer, stanzas = earlier ++ s :: later ∧ (∀ s' ∈ earlier, Undecided secret s') ∧
        Decides secret s answer := by
  induction stanzas with
  | nil => exact .inl (List.forall_mem_nil _)
  | cons first stanzas ih =>
    by_cases decides : ∃ answer, Decides secret first answer
    · obtain ⟨answer, decides⟩ := decides
      exact .inr ⟨[], first, stanzas, answer, rfl, List.forall_mem_nil _, decides⟩
    · have undecided : Undecided secret first := not_exists.1 decides
      rcases ih with none | ⟨earlier, s, later, answer, rfl, others, decided⟩
      · exact .inl (List.forall_mem_cons.2 ⟨undecided, none⟩)
      · exact .inr ⟨first :: earlier, s, later, answer, rfl, List.forall_mem_cons.2 ⟨undecided, others⟩, decided⟩

theorem unwrapAll_of_decides {secret : SecretKey} {earlier : List Stanza} (others : ∀ s ∈ earlier, Undecided secret s)
    {s : Stanza} {answer : Except DecryptError FileKey} (decides : Decides secret s answer) (later : List Stanza) :
    (identity secret).unwrapAll (earlier ++ s :: later) = answer.mapError .fatal :=
  Identity.unwrapFirst_of_first (fun s' member => unwrap_eq_none_iff.2 (others s' member)) (unwrap_eq_some_iff.2 decides) later

theorem unwrapAll_of_undecided {secret : SecretKey} {stanzas : List Stanza} (none : ∀ s ∈ stanzas, Undecided secret s) :
    (identity secret).unwrapAll stanzas = .error (.recovered .noMatch) :=
  Identity.unwrapFirst_of_none fun s member => unwrap_eq_none_iff.2 (none s member)

/-- What an X25519 identity gives for the stanzas of a header is not changed by inserting and deleting foreign ones. It is the
    answer of the first stanza that decides, a failure being fatal, and if none decides, another identity may be tried. -/
theorem unwrapAll_selects (secret : SecretKey) :
    (∀ before after, Edited before after → (identity secret).unwrapAll after = (identity secret).unwrapAll before) ∧
      ∀ stanzas result, (identity secret).unwrapAll stanzas = result ↔
        (∃ earlier s later answer, stanzas = earlier ++ s :: later ∧ (∀ s' ∈ earlier, Undecided secret s') ∧
          Decides secret s answer ∧ result = answer.mapError .fatal) ∨
        ((∀ s ∈ stanzas, Undecided secret s) ∧ result = .error (.recovered .noMatch)) := by
  constructor
  · intro before after edited
    show (identity secret).unwrapFirst after = (identity secret).unwrapFirst before
    simp only [Identity.unwrapFirst, firstUnwrapped, findSome?_edited edited secret]
  · intro stanzas result
    constructor
    · rintro rfl
      rcases undecided_or_first secret stanzas with none | ⟨earlier, s, later, answer, rfl, others, decides⟩
      · exact .inr ⟨none, unwrapAll_of_undecided none⟩
      · exact .inl ⟨earlier, s, later, answer, rfl, others, decides, unwrapAll_of_decides others decides later⟩
    · rintro (⟨earlier, s, later, answer, rfl, others, decides, rfl⟩ | ⟨none, rfl⟩)
      · exact unwrapAll_of_decides others decides later
      · exact unwrapAll_of_undecided none

/-- A share of zeros is fatal, and so it is behind a stanza of another kind. -/
theorem unwrapAll_selects_zeros :
    let secret : SecretKey := ⟨Block.zeros 32⟩
    let ssh : Stanza := ⟨"ssh-ed25519", ["c2NyYXRjaA"], []⟩
    let stanza : Stanza := ⟨tag, [Base64.encodeText (Block.zeros 32).bytes], List.replicate 32 0⟩
    (identity secret).unwrapAll [stanza] = .error (.fatal .lowOrderPoint) ∧
      (identity secret).unwrapAll [ssh, stanza] = .error (.fatal .lowOrderPoint) := by
  intro secret ssh stanza
  obtain ⟨edits, selects⟩ := unwrapAll_selects secret
  have foreign : Foreign ssh := .otherTag (by decide)
  have low : Decides secret stanza (.error .lowOrderPoint) :=
    .lowOrder ⟨rfl, rfl⟩ (List.length_replicate) (by decide : coordinateOf (Block.zeros 32) ∈ lowOrder)
  have fatal : (identity secret).unwrapAll [stanza] = .error (.fatal .lowOrderPoint) :=
    (selects _ _).2 (.inl ⟨[], stanza, [], _, rfl, List.forall_mem_nil _, low, rfl⟩)
  exact ⟨fatal, (edits _ _ (.insert foreign (.keep stanza .nil))).trans fatal⟩

end X25519

end AgeCrypt
