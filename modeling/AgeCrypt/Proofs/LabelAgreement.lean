import AgeCrypt.Proofs.Wrapping

/-!
# Recipients and their labels

Recipients wrap a file key one after the other, and each answers with stanzas and labels, or with a failure
(`Audience.answers`). Main statement: the file key is wrapped for all of them exactly if all wrap it and attach the same
valid labels, and otherwise the first one that does not decides the error (`Audience.wrapEach_decided`). A conflict of
labels is always one of different sets, so that there is a text for it.
-/

namespace AgeCrypt

section
variable {α β : Type} {x : Encrypting α} {f : α → Encrypting β} {randomness later : Randomness}

theorem Encrypting.run_bind_of_ok {a : α} (draws : x.run randomness = (.ok a, later)) :
    (x >>= f).run randomness = (f a).run later := by
  rw [ExceptT.run_bind]
  change StateT.bind x.run _ randomness = _
  simp only [StateT.bind, draws]
  rfl

theorem Encrypting.run_bind_of_error {e : EncryptError} (fails : x.run randomness = (.error e, later)) :
    (x >>= f).run randomness = (.error e, later) := by
  rw [ExceptT.run_bind]
  change StateT.bind x.run _ randomness = _
  simp only [StateT.bind, fails]
  rfl

end

/-- A recipient that knows nothing of labels. Its stanzas come with the empty set. -/
def Recipient.unlabeled (wrap : FileKey → Encrypting (List Stanza)) (isPassphrase : Bool) : Recipient where
  wrap key := do
    let stanzas ← wrap key
    pure (stanzas, .empty)
  isPassphrase

theorem X25519.recipient_eq_unlabeled (key : X25519.PublicKey) :
    X25519.recipient key = .unlabeled (fun fileKey => do
      let ephemeral ← Randomness.draw 32
      pure [X25519.wrapWith ⟨ephemeral⟩ key fileKey]) false := rfl

theorem Passphrase.recipient_eq_unlabeled (passphrase : String) (workFactor : WorkFactor) :
    Passphrase.recipient passphrase workFactor = .unlabeled (fun fileKey => do
      let salt ← Randomness.draw 16
      pure [Passphrase.wrapWith salt passphrase workFactor fileKey]) true := rfl

/-- Every label is a text of visible ASCII characters, and there are some. -/
def LabelSet.IsValid (set : LabelSet) : Prop :=
  ∀ label ∈ set.labels, label.toList ≠ [] ∧ ∀ c ∈ label.toList, 33 ≤ c.toNat ∧ c.toNat ≤ 126

theorem LabelSet.all_eq_true_iff {set : LabelSet} : set.labels.all isArbitraryString = true ↔ set.IsValid := by
  simp only [List.all_eq_true, isArbitraryString, Bool.and_eq_true, decide_eq_true_eq, IsValid]

namespace Audience

/-- What a recipient answers when it is to wrap a file key, and the randomness that it leaves. -/
structure Answer where
  recipient : Recipient
  result : Except EncryptError (List Stanza × LabelSet)
  left : Randomness

/-- The stanzas of an answer. -/
def Answer.stanzas (answer : Answer) : List Stanza := (answer.result.toOption.map Prod.fst).getD []

def answer (key : FileKey) (recipient : Recipient) (randomness : Randomness) : Answer :=
  let (result, left) := (recipient.wrap key).run randomness
  ⟨recipient, result, left⟩

/-- The answers of recipients who wrap a file key in their order, each once. -/
def answers (key : FileKey) : List Recipient → Randomness → List Answer
  | [], _ => []
  | recipient :: recipients, randomness =>
    answer key recipient randomness :: answers key recipients (answer key recipient randomness).left

/-- The randomness behind some answers. -/
def behind (randomness : Randomness) (answers : List Answer) : Randomness :=
  (answers.getLast?.map Answer.left).getD randomness

/-- All recipients wrap the file key, and their labels are valid and the same ones. -/
structure Agreement (answers : List Answer) : Prop where
  wraps : ∀ answer ∈ answers, ∃ stanzas labels, answer.result = .ok (stanzas, labels)
  valid : ∀ answer ∈ answers, ∀ stanzas labels, answer.result = .ok (stanzas, labels) → labels.IsValid
  same : ∀ answer ∈ answers, ∀ stanzas labels, answer.result = .ok (stanzas, labels) →
    ∀ other ∈ answers, ∀ stanzas' labels', other.result = .ok (stanzas', labels') → labels = labels'

/-- Why an answer behind others is refused: the recipient fails, or its labels are invalid, or else they are not those of
    the first recipient. -/
inductive Offends (before : List Answer) (answer : Answer) : EncryptError → Prop
  | failed {e : EncryptError} (fails : answer.result = .error e) : Offends before answer e
  | invalid {stanzas : List Stanza} {labels : LabelSet} (wraps : answer.result = .ok (stanzas, labels))
      (invalid : ¬ labels.IsValid) : Offends before answer (.invalidLabels labels)
  | conflicting {stanzas own : List Stanza} {labels leading : LabelSet} {first : Answer}
      (wraps : answer.result = .ok (stanzas, labels)) (valid : labels.IsValid) (heads : before.head? = some first)
      (leads : first.result = .ok (own, leading)) (differ : leading ≠ labels) :
      Offends before answer (.conflictingLabels leading labels)

/-- A recipient wraps the file key with just these labels, which are valid. -/
def Takes (leading : LabelSet) (answer : Answer) : Prop :=
  leading.IsValid ∧ ∃ stanzas, answer.result = .ok (stanzas, leading)

/-- Why an answer is refused when labels are there already. -/
inductive Refuses (leading : LabelSet) (answer : Answer) : EncryptError → Prop
  | failed {e : EncryptError} (fails : answer.result = .error e) : Refuses leading answer e
  | invalid {stanzas : List Stanza} {labels : LabelSet} (wraps : answer.result = .ok (stanzas, labels))
      (invalid : ¬ labels.IsValid) : Refuses leading answer (.invalidLabels labels)
  | conflicting {stanzas : List Stanza} {labels : LabelSet} (wraps : answer.result = .ok (stanzas, labels))
      (valid : labels.IsValid) (differ : leading ≠ labels) : Refuses leading answer (.conflictingLabels leading labels)

section
variable {key : FileKey} {labels? : Option LabelSet} {recipient : Recipient} {recipients : List Recipient}
  {randomness : Randomness} {stanzas : List Stanza} {labels leading : LabelSet}

theorem run_of_failed {e : EncryptError} (fails : (answer key recipient randomness).result = .error e) :
    (wrapEach key labels? (recipient :: recipients)).run randomness =
      (.error e, (answer key recipient randomness).left) := by
  have step : (recipient.wrap key).run randomness = (.error e, (answer key recipient randomness).left) :=
    Prod.ext fails rfl
  rw [wrapEach]
  exact Encrypting.run_bind_of_error step

/-- What is left to do once a recipient has wrapped the file key. -/
theorem run_of_wrapped (wraps : (answer key recipient randomness).result = .ok (stanzas, labels)) :
    (wrapEach key labels? (recipient :: recipients)).run randomness =
      (do
        if !labels.labels.all isArbitraryString then
          throw (.invalidLabels labels)
        if labels ≠ labels?.getD labels then
          throw (.conflictingLabels (labels?.getD labels) labels)
        let rest ← wrapEach key (some (labels?.getD labels)) recipients
        pure (stanzas ++ rest) : Encrypting (List Stanza)).run (answer key recipient randomness).left := by
  have step : (recipient.wrap key).run randomness = (.ok (stanzas, labels), (answer key recipient randomness).left) :=
    Prod.ext wraps rfl
  rw [wrapEach]
  exact Encrypting.run_bind_of_ok step

theorem run_of_invalid (wraps : (answer key recipient randomness).result = .ok (stanzas, labels))
    (invalid : ¬ labels.IsValid) : (wrapEach key labels? (recipient :: recipients)).run randomness =
      (.error (.invalidLabels labels), (answer key recipient randomness).left) := by
  have refused : (!labels.labels.all isArbitraryString) = true := by
    rw [Bool.not_eq_true', Bool.eq_false_iff]
    exact mt LabelSet.all_eq_true_iff.1 invalid
  rw [run_of_wrapped wraps, if_pos refused]
  rfl

theorem run_of_conflicting (wraps : (answer key recipient randomness).result = .ok (stanzas, labels))
    (valid : labels.IsValid) (differ : leading ≠ labels) :
    (wrapEach key (some leading) (recipient :: recipients)).run randomness =
      (.error (.conflictingLabels leading labels), (answer key recipient randomness).left) := by
  have passed : ¬ (!labels.labels.all isArbitraryString) = true := by
    rw [LabelSet.all_eq_true_iff.2 valid]
    decide
  have other : labels ≠ (some leading).getD labels := differ.symm
  rw [run_of_wrapped wraps, if_neg passed, if_pos other]
  rfl

/-- Behind labels that agree, the recipients that follow have to attach the same ones. -/
theorem run_of_agreeing (wraps : (answer key recipient randomness).result = .ok (stanzas, labels))
    (valid : labels.IsValid) (same : labels?.getD labels = labels) :
    (wrapEach key labels? (recipient :: recipients)).run randomness =
      ((wrapEach key (some labels) recipients >>= fun rest => pure (stanzas ++ rest)) : Encrypting (List Stanza)).run
        (answer key recipient randomness).left := by
  have passed : ¬ (!labels.labels.all isArbitraryString) = true := by
    rw [LabelSet.all_eq_true_iff.2 valid]
    decide
  rw [run_of_wrapped wraps, if_neg passed, same, if_neg (not_not_intro rfl)]

end

section
variable {key : FileKey} {leading : LabelSet} {recipients : List Recipient} {randomness : Randomness}

theorem takes_or_refuses (leading : LabelSet) (answer : Answer) :
    Takes leading answer ∨ ∃ e, Refuses leading answer e := by
  cases given : answer.result with
  | error e => exact .inr ⟨e, .failed given⟩
  | ok pair =>
    obtain ⟨stanzas, labels⟩ := pair
    by_cases valid : labels.IsValid
    · by_cases same : leading = labels
      · obtain rfl := same
        exact .inl ⟨valid, stanzas, given⟩
      · exact .inr ⟨_, .conflicting given valid same⟩
    · exact .inr ⟨_, .invalid given valid⟩

theorem run_of_refuses {recipient : Recipient} {e : EncryptError}
    (refuses : Refuses leading (answer key recipient randomness) e) :
    (wrapEach key (some leading) (recipient :: recipients)).run randomness =
      (.error e, (answer key recipient randomness).left) := by
  cases refuses with
  | failed fails => exact run_of_failed fails
  | invalid wraps invalid => exact run_of_invalid wraps invalid
  | conflicting wraps valid differ => exact run_of_conflicting wraps valid differ

theorem stanzas_of_result {answer : Answer} {stanzas : List Stanza} {labels : LabelSet}
    (wraps : answer.result = .ok (stanzas, labels)) : answer.stanzas = stanzas := by
  rw [Answer.stanzas, wraps]
  rfl

theorem behind_cons (randomness : Randomness) (first : Answer) (rest : List Answer) :
    behind randomness (first :: rest) = behind first.left rest := by
  cases rest with
  | nil => rfl
  | cons second rest => rw [behind, behind, List.getLast?_cons_cons, List.getLast?_cons]; rfl

/-- With labels that are there already, either all recipients take them, or the first one that does not decides. -/
theorem wrapEach_some (key : FileKey) (leading : LabelSet) (recipients : List Recipient) (randomness : Randomness) :
    ((∀ answer ∈ answers key recipients randomness, Takes leading answer) ∧
      (wrapEach key (some leading) recipients).run randomness =
        (.ok ((answers key recipients randomness).flatMap Answer.stanzas),
          behind randomness (answers key recipients randomness))) ∨
    ∃ before answer after e, answers key recipients randomness = before ++ answer :: after ∧
      (∀ earlier ∈ before, Takes leading earlier) ∧ Refuses leading answer e ∧
      (wrapEach key (some leading) recipients).run randomness = (.error e, answer.left) := by
  induction recipients generalizing randomness with
  | nil => exact .inl ⟨List.forall_mem_nil _, rfl⟩
  | cons recipient recipients ih =>
    rw [answers]
    rcases takes_or_refuses leading (answer key recipient randomness) with takes | ⟨e, refuses⟩
    · have ⟨valid, stanzas, wraps⟩ := takes
      rw [run_of_agreeing wraps valid rfl]
      rcases ih (answer key recipient randomness).left with ⟨all, run⟩ | ⟨before, later, after, e, split, passed, refuses, run⟩
      · refine .inl ⟨List.forall_mem_cons.2 ⟨takes, all⟩, ?_⟩
        rw [behind_cons, List.flatMap_cons, stanzas_of_result wraps, Encrypting.run_bind_of_ok run]
        rfl
      · refine .inr ⟨answer key recipient randomness :: before, later, after, e, ?_, ?_, refuses, ?_⟩
        · rw [split]
          rfl
        · exact List.forall_mem_cons.2 ⟨takes, passed⟩
        · exact Encrypting.run_bind_of_error run
    · exact .inr ⟨[], _, _, e, rfl, List.forall_mem_nil _, refuses, run_of_refuses refuses⟩

theorem agreement_of_takes {answers : List Answer} (takes : ∀ answer ∈ answers, Takes leading answer) :
    Agreement answers := by
  have own : ∀ answer ∈ answers, ∀ stanzas labels, answer.result = .ok (stanzas, labels) → leading = labels := by
    intro answer member stanzas labels wraps
    obtain ⟨_, _, given⟩ := takes answer member
    rw [given] at wraps
    cases wraps
    rfl
  constructor
  · intro answer member
    obtain ⟨_, stanzas, given⟩ := takes answer member
    exact ⟨stanzas, leading, given⟩
  · intro answer member stanzas labels wraps
    rw [← own answer member stanzas labels wraps]
    exact (takes answer member).1
  · intro answer member stanzas labels wraps other member' stanzas' labels' wraps'
    rw [← own answer member stanzas labels wraps, ← own other member' stanzas' labels' wraps']

theorem offends_of_refuses {first answer : Answer} {before : List Answer} {e : EncryptError} (takes : Takes leading first)
    (refuses : Refuses leading answer e) : Offends (first :: before) answer e := by
  obtain ⟨_, own, leads⟩ := takes
  cases refuses with
  | failed fails => exact .failed fails
  | invalid wraps invalid => exact .invalid wraps invalid
  | conflicting wraps valid differ => exact .conflicting wraps valid rfl leads differ

theorem not_agreement_of_offends {answer : Answer} {before after : List Answer} {e : EncryptError}
    (offends : Offends before answer e) : ¬ Agreement (before ++ answer :: after) := by
  intro agreement
  have member : answer ∈ before ++ answer :: after := List.mem_append_right before List.mem_cons_self
  cases offends with
  | failed fails =>
    obtain ⟨stanzas, labels, wraps⟩ := agreement.wraps answer member
    rw [fails] at wraps
    cases wraps
  | invalid wraps invalid => exact invalid (agreement.valid answer member _ _ wraps)
  | @conflicting _ _ _ _ first wraps valid heads leads differ =>
    have ahead : first ∈ before ++ answer :: after := List.mem_append_left _ (List.mem_of_head? heads)
    exact differ (agreement.same first ahead _ _ leads answer member _ _ wraps)

/-- Either all recipients agree, or the first one that offends decides. -/
theorem agreement_or_offends (key : FileKey) (recipients : List Recipient) (randomness : Randomness) :
    (Agreement (answers key recipients randomness) ∧
      (wrapEach key none recipients).run randomness =
        (.ok ((answers key recipients randomness).flatMap Answer.stanzas),
          behind randomness (answers key recipients randomness))) ∨
    ∃ before answer after e, answers key recipients randomness = before ++ answer :: after ∧
      Agreement before ∧ Offends before answer e ∧
      (wrapEach key none recipients).run randomness = (.error e, answer.left) := by
  have nobody : Agreement [] := ⟨List.forall_mem_nil _, List.forall_mem_nil _, List.forall_mem_nil _⟩
  cases recipients with
  | nil => exact .inl ⟨nobody, rfl⟩
  | cons recipient recipients =>
    rw [answers]
    cases given : (answer key recipient randomness).result with
    | error e => exact .inr ⟨[], _, _, e, rfl, nobody, .failed given, run_of_failed given⟩
    | ok pair =>
      obtain ⟨stanzas, labels⟩ := pair
      by_cases valid : labels.IsValid
      · have takes : Takes labels (answer key recipient randomness) := ⟨valid, stanzas, given⟩
        rw [run_of_agreeing given valid rfl]
        rcases wrapEach_some key labels recipients (answer key recipient randomness).left with
          ⟨all, run⟩ | ⟨before, later, after, e, split, passed, refuses, run⟩
        · refine .inl ⟨agreement_of_takes (List.forall_mem_cons.2 ⟨takes, all⟩), ?_⟩
          rw [behind_cons, List.flatMap_cons, stanzas_of_result given, Encrypting.run_bind_of_ok run]
          rfl
        · refine .inr ⟨answer key recipient randomness :: before, later, after, e, ?_, ?_, ?_, ?_⟩
          · rw [split]
            rfl
          · exact agreement_of_takes (List.forall_mem_cons.2 ⟨takes, passed⟩)
          · exact offends_of_refuses takes refuses
          · exact Encrypting.run_bind_of_error run
      · exact .inr ⟨[], _, _, _, rfl, nobody, .invalid given valid, run_of_invalid given valid⟩

/-- Different sets of labels have a text. -/
theorem message_of_conflicting {left right : LabelSet} (differ : left ≠ right) :
    ∃ text, (EncryptError.conflictingLabels left right).message = .ok text := by
  obtain ⟨left, _⟩ := left
  obtain ⟨right, _⟩ := right
  cases left with
  | cons => cases right <;> exact ⟨_, rfl⟩
  | nil =>
    cases right with
    | cons => exact ⟨_, rfl⟩
    | nil => exact absurd rfl differ

theorem message_of_offends {answer : Answer} {before : List Answer} {e : EncryptError} (offends : Offends before answer e)
    (wraps : ∃ wrapped, answer.result = .ok wrapped) :
    (∀ left right, e = .conflictingLabels left right → left ≠ right) ∧ ∃ text, e.message = .ok text := by
  cases offends with
  | failed fails =>
    obtain ⟨_, wraps⟩ := wraps
    rw [fails] at wraps
    cases wraps
  | invalid _ _ =>
    refine ⟨fun left right same => ?_, _, rfl⟩
    cases same
  | conflicting _ _ _ _ differ =>
    refine ⟨fun left right same => ?_, message_of_conflicting differ⟩
    cases same
    exact differ

theorem recipients_of_answers (key : FileKey) (recipients : List Recipient) (randomness : Randomness) :
    (answers key recipients randomness).map Answer.recipient = recipients := by
  induction recipients generalizing randomness with
  | nil => rfl
  | cons recipient recipients ih => rw [answers, List.map_cons, ih]; rfl

theorem exists_answer_of_mem {answer : Answer} (member : answer ∈ answers key recipients randomness) :
    ∃ asked, answer = Audience.answer key answer.recipient asked := by
  induction recipients generalizing randomness with
  | nil => cases member
  | cons recipient recipients ih =>
    rcases List.mem_cons.1 member with rfl | member
    · exact ⟨randomness, rfl⟩
    · exact ih member

/-- A recipient that knows nothing of labels answers with none. -/
theorem labels_of_unlabeled {answer : Answer} (member : answer ∈ answers key recipients randomness)
    {wrap : FileKey → Encrypting (List Stanza)} {isPassphrase : Bool} {stanzas : List Stanza} {labels : LabelSet}
    (unlabeled : answer.recipient = .unlabeled wrap isPassphrase) (wraps : answer.result = .ok (stanzas, labels)) :
    labels = .empty := by
  obtain ⟨asked, given⟩ := exists_answer_of_mem member
  rw [unlabeled] at given
  have run : ((Recipient.unlabeled wrap isPassphrase).wrap key).run asked = (.ok (stanzas, labels), answer.left) := by
    rw [given] at wraps ⊢
    exact Prod.ext wraps rfl
  obtain ⟨_, _, _, done⟩ := Encrypting.bind_eq_ok run
  cases done
  rfl

/-- Wrapping a file key succeeds exactly if all recipients wrap it and attach the same valid labels, and gives their
    stanzas in the order of the recipients, each of whom was asked once. Otherwise the first recipient that offends
    decides the error. If it is not the recipient's own, there is a text for it, as labels conflict only if they differ. -/
theorem wrapEach_decided (key : FileKey) (recipients : List Recipient) (randomness : Randomness) :
    (answers key recipients randomness).map Answer.recipient = recipients ∧
    (∀ answer ∈ answers key recipients randomness, ∀ wrap isPassphrase stanzas labels,
      answer.recipient = .unlabeled wrap isPassphrase → answer.result = .ok (stanzas, labels) → labels = .empty) ∧
    ((∃ stanzas later, (wrapEach key none recipients).run randomness = (.ok stanzas, later)) ↔
      Agreement (answers key recipients randomness)) ∧
    (∀ stanzas later, (wrapEach key none recipients).run randomness = (.ok stanzas, later) →
      stanzas = (answers key recipients randomness).flatMap Answer.stanzas ∧
        later = behind randomness (answers key recipients randomness)) ∧
    ∀ e later, (wrapEach key none recipients).run randomness = (.error e, later) →
      ∃ before answer after, answers key recipients randomness = before ++ answer :: after ∧ Agreement before ∧
        Offends before answer e ∧ later = answer.left ∧
        ((∃ wrapped, answer.result = .ok wrapped) →
          (∀ left right, e = .conflictingLabels left right → left ≠ right) ∧ ∃ text, e.message = .ok text) := by
  refine ⟨recipients_of_answers key recipients randomness,
    fun answer member wrap isPassphrase stanzas labels => labels_of_unlabeled member, ?_⟩
  rcases agreement_or_offends key recipients randomness with
    ⟨agreement, run⟩ | ⟨before, answer, after, e, split, passed, offends, run⟩
  · refine ⟨iff_of_true ⟨_, _, run⟩ agreement, ?_, ?_⟩
    · intro stanzas later made
      rw [run] at made
      cases made
      exact ⟨rfl, rfl⟩
    · intro e later made
      rw [run] at made
      cases made
  · refine ⟨iff_of_false ?_ ?_, ?_, ?_⟩
    · rintro ⟨stanzas, later, made⟩
      rw [run] at made
      cases made
    · rw [split]
      exact not_agreement_of_offends offends
    · intro stanzas later made
      rw [run] at made
      cases made
    · intro e' later made
      rw [run] at made
      cases made
      exact ⟨before, answer, after, split, passed, offends, rfl, message_of_offends offends⟩

end

end Audience

end AgeCrypt
