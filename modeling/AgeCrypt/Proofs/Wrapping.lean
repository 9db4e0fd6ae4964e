import AgeCrypt.Encryption
import AgeCrypt.Passphrase
import AgeCrypt.Proofs.HeaderLines
import AgeCrypt.Proofs.Unlocking
import AgeCrypt.X25519

/-!
# File keys that are wrapped

The identity that corresponds to a recipient unwraps the file key that was wrapped for all recipients
(`Corresponds.opens`). X25519 keys agree on a shared secret if the exchange is symmetric, and whether a stanza for another
key opens is up to the cipher, so that both are assumed of the ephemeral secrets that were drawn (`X25519.Agreement`).
-/

namespace AgeCrypt

theorem Encrypting.bind_eq_ok {α β : Type} {x : Encrypting α} {f : α → Encrypting β} {randomness later : Randomness}
    {b : β} (draws : (x >>= f).run randomness = (.ok b, later)) :
    ∃ a middle, x.run randomness = (.ok a, middle) ∧ (f a).run middle = (.ok b, later) := by
  rw [ExceptT.run_bind] at draws
  change StateT.bind x.run _ randomness = _ at draws
  cases step : x.run randomness with
  | mk result middle =>
    simp only [StateT.bind, step] at draws
    cases result with
    | ok a => exact ⟨a, middle, rfl, draws⟩
    | error e => cases draws

theorem Audience.wrapEach_cons {key : FileKey} {labels? : Option LabelSet} {recipient : Recipient}
    {recipients : List Recipient} {randomness later : Randomness} {stanzas : List Stanza}
    (wraps : (wrapEach key labels? (recipient :: recipients)).run randomness = (.ok stanzas, later)) :
    ∃ own labels middle first rest, (recipient.wrap key).run randomness = (.ok (own, labels), middle) ∧
      (wrapEach key first recipients).run middle = (.ok rest, later) ∧ stanzas = own ++ rest := by
  obtain ⟨⟨own, labels⟩, middle, step, wraps⟩ := Encrypting.bind_eq_ok wraps
  dsimp only at wraps
  split at wraps
  · cases wraps
  split at wraps
  · cases wraps
  obtain ⟨rest, _, others, done⟩ := Encrypting.bind_eq_ok wraps
  cases done
  exact ⟨own, labels, middle, _, rest, step, others, rfl⟩

theorem Audience.recipients_of_ofRecipients {recipients : List Recipient} {audience : Audience}
    (allowed : ofRecipients recipients = .ok audience) : audience.recipients = recipients := by
  unfold ofRecipients at allowed
  split at allowed
  · cases allowed
  split at allowed
  · cases allowed
    rfl
  · cases allowed

/-- The prologue of an encryption to some recipients from some randomness. -/
def Prepares (recipients : List Recipient) (randomness : Randomness) (p : Prologue) : Prop :=
  ∃ audience later, Audience.ofRecipients recipients = .ok audience ∧ audience.prologue.run randomness = (.ok p, later)

/-- The randomness behind a file key. -/
def Randomness.afterFileKey (randomness : Randomness) : Randomness := { randomness with used := randomness.used + 16 }

/-- A prologue holds the stanzas of all recipients with the MAC under the key that was drawn first. -/
theorem stanzas_of_prepares {recipients : List Recipient} {randomness : Randomness} {p : Prologue}
    (prepares : Prepares recipients randomness p) :
    ∃ stanzas later, (Audience.wrapEach (randomness.peek 16) none recipients).run randomness.afterFileKey = (.ok stanzas, later) ∧
      p.header = .sign (randomness.peek 16) stanzas ∧ p.payloadKey = FileKey.payloadKey (randomness.peek 16) p.nonce := by
  obtain ⟨audience, later, allowed, draws⟩ := prepares
  have same := Audience.recipients_of_ofRecipients allowed
  obtain ⟨key, _, drawn, draws⟩ := Encrypting.bind_eq_ok draws
  cases drawn
  obtain ⟨stanzas, later', wraps, draws⟩ := Encrypting.bind_eq_ok draws
  obtain ⟨nonce, _, drawn, draws⟩ := Encrypting.bind_eq_ok draws
  cases drawn
  cases draws
  rw [Audience.wrap, same] at wraps
  exact ⟨stanzas, later', wraps, rfl, rfl⟩

theorem length_wrapUnder (key : Block 32) (fileKey : FileKey) : (wrapUnder key fileKey).length = wrappedLength := by
  rw [wrapUnder, length_encryptOnce, fileKey.length_bytes]
  rfl

theorem unwrapUnder_wrapUnder (key : Block 32) (fileKey : FileKey) : unwrapUnder key (wrapUnder key fileKey) = some fileKey := by
  have opens : decryptOnce key 16 (wrapUnder key fileKey) = .ok fileKey.bytes :=
    decryptOnce_eq_ok_iff.2 ⟨fileKey.length_bytes, rfl⟩
  rw [unwrapUnder, opens]
  exact Block.ofBytes?_eq_some_iff.2 rfl

theorem blockOf?_encodeText {n : Nat} (block : Block n) : Base64.blockOf? n (Base64.encodeText block.bytes) = some block := by
  have size : (Base64.encodeText block.bytes).utf8ByteSize = (4 * n + 2) / 3 := by
    rw [Base64.utf8ByteSize_encodeText, block.length_bytes]
  rw [Base64.blockOf?, if_pos size, Base64.decodeBlock_eq_some_iff.2 rfl]

theorem isArbitraryString_encodeText {n : Nat} (block : Block (n + 1)) :
    isArbitraryString (Base64.encodeText block.bytes) = true := by
  simp only [isArbitraryString, Bool.and_eq_true, List.all_eq_true, decide_eq_true_eq, Base64.toList_encodeText]
  constructor
  · intro none
    have length := Base64.length_encode block.bytes
    rw [none, block.length_bytes, List.length_nil] at length
    omega
  · intro c member
    obtain ⟨low, high, _⟩ := Base64.visible_of_mem_encode member
    exact ⟨low, high⟩

/-- A stanza that may stand beside others, and gives an identity the file key if it is for it at all. -/
structure Suits (identity : Identity) (fileKey : FileKey) (s : Stanza) : Prop where
  writable : s.isWritable = true
  shareable : s.tag ≠ Header.passphraseTag
  unwraps : identity.unwrap s = none ∨ identity.unwrap s = some (.ok fileKey)

theorem Identity.unwrapFirst_of_suits {identity : Identity} {fileKey : FileKey} {stanzas : List Stanza}
    (suits : ∀ s ∈ stanzas, Suits identity fileKey s) (opens : ∃ s ∈ stanzas, identity.unwrap s = some (.ok fileKey)) :
    identity.unwrapFirst stanzas = .ok fileKey := by
  have found : stanzas.findSome? identity.unwrap = some (.ok fileKey) := by
    induction stanzas with
    | nil =>
      obtain ⟨s, member, _⟩ := opens
      cases member
    | cons first rest ih =>
      rw [List.findSome?_cons]
      rcases (suits first List.mem_cons_self).unwraps with none | unwraps
      · rw [none]
        refine ih (fun s member => suits s (List.mem_cons_of_mem first member)) ?_
        obtain ⟨s, member, unwraps⟩ := opens
        rcases List.mem_cons.1 member with rfl | member
        · rw [none] at unwraps
          cases unwraps
        · exact ⟨s, member, unwraps⟩
      · rw [unwraps]
  rw [unwrapFirst, firstUnwrapped, found]

/-! ## X25519 keys -/

namespace X25519

theorem isWritable_wrapWith (ephemeral : SecretKey) (key : PublicKey) (fileKey : FileKey) :
    (wrapWith ephemeral key fileKey).isWritable = true := by
  have share := isArbitraryString_encodeText ephemeral.toPublic.block
  simp only [Stanza.isWritable, wrapWith, List.all_cons, List.all_nil, Bool.and_true, Bool.and_eq_true]
  exact ⟨by decide, share⟩

theorem shareOf?_wrapWith (ephemeral : SecretKey) (key : PublicKey) (fileKey : FileKey) :
    shareOf? (wrapWith ephemeral key fileKey) = some ephemeral.toPublic := by
  simp only [shareOf?, wrapWith, decide_true, blockOf?_encodeText]
  rfl

theorem length_body_wrapWith (ephemeral : SecretKey) (key : PublicKey) (fileKey : FileKey) :
    (wrapWith ephemeral key fileKey).body.length = wrappedLength := by
  rw [wrapWith]
  exact length_wrapUnder _ _

/-- The key under which an identity unwraps what was wrapped with an ephemeral secret. -/
def unwrappingKey (secret ephemeral : SecretKey) : Block 32 :=
  wrappingKey ephemeral.toPublic secret.toPublic (Curve25519.sharedSecret secret.block ephemeral.toPublic.block)

/-- What is assumed of the exchanges with the ephemeral secrets that were drawn for some keys: those for the own key are
    symmetric, each contributes, and the body for another key does not open. -/
structure Agreement (secret : SecretKey) (fileKey : FileKey) (drawn : List (PublicKey × SecretKey)) : Prop where
  commutes : ∀ ephemeral, (secret.toPublic, ephemeral) ∈ drawn →
    Curve25519.sharedSecret ephemeral.block secret.toPublic.block =
      Curve25519.sharedSecret secret.block ephemeral.toPublic.block
  contributes : ∀ key ephemeral, (key, ephemeral) ∈ drawn →
    Curve25519.contributory (Curve25519.sharedSecret secret.block ephemeral.toPublic.block) = true
  selective : ∀ key ephemeral, (key, ephemeral) ∈ drawn → key ≠ secret.toPublic →
    unwrapUnder (unwrappingKey secret ephemeral) (wrapWith ephemeral key fileKey).body = none

theorem Agreement.of_subset {secret : SecretKey} {fileKey : FileKey} {drawn drawn' : List (PublicKey × SecretKey)}
    (agreement : Agreement secret fileKey drawn) (part : ∀ pair ∈ drawn', pair ∈ drawn) : Agreement secret fileKey drawn' where
  commutes ephemeral member := agreement.commutes ephemeral (part _ member)
  contributes key ephemeral member := agreement.contributes key ephemeral (part _ member)
  selective key ephemeral member := agreement.selective key ephemeral (part _ member)

section
variable {secret ephemeral : SecretKey} {key : PublicKey} {fileKey : FileKey} {drawn : List (PublicKey × SecretKey)}

theorem unwrap_wrapWith (contributes :
    Curve25519.contributory (Curve25519.sharedSecret secret.block ephemeral.toPublic.block) = true) :
    (identity secret).unwrap (wrapWith ephemeral key fileKey) =
      (unwrapUnder (unwrappingKey secret ephemeral) (wrapWith ephemeral key fileKey).body).map .ok := by
  show (shareOf? (wrapWith ephemeral key fileKey)).bind _ = _
  rw [shareOf?_wrapWith, Option.bind_some]
  have size := length_body_wrapWith ephemeral key fileKey
  generalize (wrapWith ephemeral key fileKey).body = body at size
  rw [unwrapWith, if_neg (fun differ => differ size)]
  dsimp only
  rw [contributes]
  rfl

/-- The stanza for the own key gives the file key. -/
theorem unwrap_own (agreement : Agreement secret fileKey drawn) (member : (secret.toPublic, ephemeral) ∈ drawn) :
    (identity secret).unwrap (wrapWith ephemeral secret.toPublic fileKey) = some (.ok fileKey) := by
  have same : (wrapWith ephemeral secret.toPublic fileKey).body = wrapUnder (unwrappingKey secret ephemeral) fileKey := by
    rw [unwrappingKey, ← agreement.commutes ephemeral member]
    rfl
  rw [unwrap_wrapWith (agreement.contributes _ _ member), same, unwrapUnder_wrapUnder]
  rfl

theorem suits_wrapWith (agreement : Agreement secret fileKey drawn) (member : (key, ephemeral) ∈ drawn) :
    Suits (identity secret) fileKey (wrapWith ephemeral key fileKey) where
  writable := isWritable_wrapWith ephemeral key fileKey
  shareable := by
    have differ : tag ≠ Header.passphraseTag := by decide
    exact differ
  unwraps := by
    by_cases own : key = secret.toPublic
    · obtain rfl := own
      exact .inr (unwrap_own agreement member)
    · left
      rw [unwrap_wrapWith (agreement.contributes key ephemeral member), agreement.selective key ephemeral member own]
      rfl

theorem unwrap_of_tag {s : Stanza} (other : s.tag ≠ tag) : (identity secret).unwrap s = none := by
  simp only [identity, shareOf?, decide_eq_false other, Option.bind_none]

end

end X25519

namespace WorkFactor

theorem toDigits_digit {c : Char} (digit : c.isDigit = true) :
    c.toNat - '0'.toNat < 10 ∧ Nat.toDigits 10 (c.toNat - '0'.toNat) = [c] := by
  have zero : '0'.toNat = 48 := rfl
  have nine : '9'.toNat = 57 := rfl
  obtain ⟨low, high⟩ := Char.isDigit_iff_toNat.1 digit
  have small : c.toNat - '0'.toNat < 10 := by omega
  refine ⟨small, ?_⟩
  rw [Nat.toDigits_of_lt_base small, List.cons.injEq, ← Char.toNat_inj, Nat.toNat_digitChar_of_lt_ten small]
  exact ⟨by omega, rfl⟩

/-- Digits behind a positive number are the digits of the number that they make together. -/
theorem toDigits_ofDigitChars {cs : List Char} (digits : ∀ c ∈ cs, c.isDigit = true) {n : Nat} (pos : 0 < n) :
    Nat.toDigits 10 (Nat.ofDigitChars 10 cs n) = Nat.toDigits 10 n ++ cs := by
  induction cs generalizing n with
  | nil => rw [Nat.ofDigitChars_nil, List.append_nil]
  | cons c cs ih =>
    obtain ⟨small, single⟩ := toDigits_digit (digits c List.mem_cons_self)
    have rest := @ih (fun d member => digits d (List.mem_cons_of_mem c member)) (10 * n + (c.toNat - '0'.toNat)) (by omega)
    rw [Nat.ofDigitChars_cons, rest, ← Nat.toDigits_append_toDigits (by decide) pos small, single, List.append_assoc]
    rfl

/-- A numeral without a leading zero is that of the positive number that it denotes. -/
theorem toDigits_of_leading {c : Char} {cs : List Char} (leading : c ≠ '0') (digits : ∀ d ∈ c :: cs, d.isDigit = true) :
    0 < Nat.ofDigitChars 10 (c :: cs) 0 ∧ Nat.toDigits 10 (Nat.ofDigitChars 10 (c :: cs) 0) = c :: cs := by
  obtain ⟨_, single⟩ := toDigits_digit (digits c List.mem_cons_self)
  have pos : 0 < c.toNat - '0'.toNat := by
    refine Nat.pos_of_ne_zero fun zero => leading ?_
    rw [zero, Nat.toDigits_zero] at single
    exact (List.cons.inj single).1.symm
  have whole := toDigits_ofDigitChars (fun d member => digits d (List.mem_cons_of_mem c member)) pos
  rw [single] at whole
  rw [Nat.ofDigitChars_cons, Nat.mul_zero, Nat.zero_add]
  refine ⟨Nat.pos_of_ne_zero fun zero => ?_, whole⟩
  rw [zero, Nat.toDigits_zero] at whole
  exact leading (List.cons.inj whole).1.symm

theorem head?_toDigits {n : Nat} (pos : 0 < n) : (Nat.toDigits 10 n).head? ≠ some '0' := by
  induction n using Nat.strongRecOn with
  | ind n ih =>
    by_cases small : n < 10
    · rw [Nat.toDigits_of_lt_base small, List.head?_cons, ne_eq, Option.some.injEq, Nat.digitChar_eq_zero]
      exact Nat.ne_of_gt pos
    · have first := ih (n / 10) (by omega) (by omega)
      rw [Nat.toDigits_of_base_le (by decide) (Nat.le_of_not_lt small)]
      cases higher : Nat.toDigits 10 (n / 10) with
      | nil => exact absurd higher Nat.toDigits_ne_nil
      | cons c cs =>
        rw [higher] at first
        exact first

/-- The arguments that denote an exponent are the decimal numerals of the numbers from 1 to 255. -/
theorem parse_eq_some_iff {s : String} {n : Nat} : parse s = some n ↔ s = toString n ∧ 1 ≤ n ∧ n ≤ 255 := by
  have digitsOf : (toString n).toList = Nat.toDigits 10 n := Nat.toList_repr
  constructor
  · intro parses
    unfold parse at parses
    split at parses
    · cases parses
    · rename_i c cs characters
      dsimp only at parses
      split at parses
      · rename_i numeral
        split at parses
        · rename_i le
          cases parses
          obtain ⟨pos, same⟩ := toDigits_of_leading numeral.1 (List.all_eq_true.1 numeral.2)
          refine ⟨?_, pos, le⟩
          rw [← String.toList_inj, characters]
          exact same.symm.trans digitsOf.symm
        · cases parses
      · cases parses
  · rintro ⟨rfl, pos, le⟩
    unfold parse
    rw [digitsOf]
    have leading := head?_toDigits pos
    have digits : (Nat.toDigits 10 n).all Char.isDigit = true :=
      List.all_eq_true.2 fun c member => Nat.isDigit_of_mem_toDigits (by decide) (by decide) member
    have value : Nat.ofDigitChars 10 (Nat.toDigits 10 n) 0 = n := Nat.ofDigitChars_ten_toDigits
    revert leading digits value
    cases Nat.toDigits 10 n with
    | nil =>
      intro _ _ value
      rw [Nat.ofDigitChars_nil] at value
      omega
    | cons c cs =>
      intro leading digits value
      have numeral : c ≠ '0' ∧ (c :: cs).all Char.isDigit = true := ⟨fun zero => leading (congrArg some zero), digits⟩
      rw [Nat.ofDigitChars] at value
      simp only [if_pos numeral, value, if_pos le]

theorem isArbitraryString_toString (n : Nat) : isArbitraryString (toString n) = true := by
  have digitsOf : (toString n).toList = Nat.toDigits 10 n := Nat.toList_repr
  simp only [isArbitraryString, Bool.and_eq_true, List.all_eq_true, decide_eq_true_eq, digitsOf]
  refine ⟨Nat.toDigits_ne_nil, fun c member => ?_⟩
  obtain ⟨low, high⟩ := Char.isDigit_iff_toNat.1 (Nat.isDigit_of_mem_toDigits (by decide) (by decide) member)
  have zero : '0'.toNat = 48 := rfl
  have nine : '9'.toNat = 57 := rfl
  omega

end WorkFactor

theorem Scrypt.accepts_of_le {exponent : Nat} (pos : 1 ≤ exponent) (le : exponent ≤ 30) : Accepts exponent := by
  have cost : 2 ^ exponent ≤ 2 ^ 30 := Nat.pow_le_pow_right (by decide) le
  rw [Accepts, Nat.one_shiftLeft]
  refine ⟨pos, by omega, by omega, by omega⟩

namespace Passphrase

theorem parse_toString (workFactor : WorkFactor) :
    WorkFactor.parse (toString workFactor.exponent) = some workFactor.exponent :=
  WorkFactor.parse_eq_some_iff.2 ⟨rfl, workFactor.pos, Nat.le_trans workFactor.le (by decide)⟩

theorem isWritable_wrapWith (salt : Block 16) (passphrase : String) (workFactor : WorkFactor) (fileKey : FileKey) :
    (wrapWith salt passphrase workFactor fileKey).isWritable = true := by
  have salted := isArbitraryString_encodeText salt
  have numeral := WorkFactor.isArbitraryString_toString workFactor.exponent
  simp only [Stanza.isWritable, wrapWith, List.all_cons, List.all_nil, Bool.and_true, Bool.and_eq_true]
  exact ⟨by decide, salted, numeral⟩

/-- Whatever the stanza holds, scrypt is run with a work factor up to the maximum. -/
theorem bounds_of_parameters {max : WorkFactor} {stanza : Stanza} {salt : Block 16} {exponent : Nat}
    (runs : parameters max stanza = .ok (salt, exponent)) :
    1 ≤ exponent ∧ exponent ≤ max.exponent := by
  unfold parameters at runs
  split at runs
  · split at runs
    · cases runs
    split at runs
    · cases runs
    rename_i parsed
    split at runs
    · cases runs
    rename_i le
    split at runs
    · cases runs
    · cases runs
      exact ⟨(WorkFactor.parse_eq_some_iff.1 parsed).2.1, Nat.le_of_not_lt le⟩
  · cases runs

theorem derive?_runOf (passphrase : String) {max : WorkFactor} {stanza : Stanza} {salt : Block 16} {exponent : Nat}
    (runs : parameters max stanza = .ok (salt, exponent)) :
    Scrypt.derive? (runOf passphrase salt exponent) = some (wrappingKey passphrase salt exponent) := by
  obtain ⟨pos, le⟩ := bounds_of_parameters runs
  exact if_pos (Scrypt.accepts_of_le pos (Nat.le_trans le max.le))

theorem unwrap_of_refused {max : WorkFactor} {stanza : Stanza} {e : DecryptError} (passphrase : String)
    (own : stanza.tag = tag) (refused : parameters max stanza = .error e) :
    unwrap passphrase max stanza = some (.error e) := by
  rw [unwrap, unwrapBy, if_neg (not_not_intro own), refused]
  rfl

/-- What is left to do with its parameters does not fail, since scrypt rejects none that come to it. -/
theorem unwrap_of_parameters {max : WorkFactor} {stanza : Stanza} {salt : Block 16} {exponent : Nat} (passphrase : String)
    (own : stanza.tag = tag) (runs : parameters max stanza = .ok (salt, exponent)) :
    unwrap passphrase max stanza = (unwrapUnder (wrappingKey passphrase salt exponent) stanza.body).map .ok := by
  rw [unwrap, unwrapBy, if_neg (not_not_intro own), runs]
  dsimp only [bind]
  rw [derive?_runOf passphrase runs]
  rfl

/-- The passphrase gives the file key if the work factor is not too high. -/
theorem unwrap_wrapWith (salt : Block 16) (passphrase : String) {workFactor max : WorkFactor}
    (le : workFactor.exponent ≤ max.exponent) (fileKey : FileKey) :
    unwrap passphrase max (wrapWith salt passphrase workFactor fileKey) = some (.ok fileKey) := by
  have size : (wrapWith salt passphrase workFactor fileKey).body.length = wrappedLength := by
    rw [wrapWith]
    exact length_wrapUnder _ _
  have salted : parameters max (wrapWith salt passphrase workFactor fileKey) = .ok (salt, workFactor.exponent) := by
    have args : (wrapWith salt passphrase workFactor fileKey).args =
        [Base64.encodeText salt.bytes, toString workFactor.exponent] := rfl
    simp only [parameters, args, blockOf?_encodeText, parse_toString workFactor, if_neg (Nat.not_lt.2 le), size,
      ne_eq, not_true_eq_false, if_false]
  have same : (wrapWith salt passphrase workFactor fileKey).tag = tag := rfl
  have body : (wrapWith salt passphrase workFactor fileKey).body =
      wrapUnder (wrappingKey passphrase salt workFactor.exponent) fileKey := rfl
  rw [unwrap_of_parameters passphrase same salted, body, unwrapUnder_wrapUnder]
  rfl

end Passphrase

/-! ## Recipients -/

/-- One of the recipients who share a file. -/
inductive Party
  | x25519 (key : X25519.PublicKey)
  | foreign (recipient : Recipient)

namespace Party

/-- The recipient that a party is. -/
def recipient : Party → Recipient
  | x25519 key => X25519.recipient key
  | foreign recipient => recipient

/-- The stanzas that the recipient makes may stand in a header and are not like those that the library makes. -/
def IsForeign (recipient : Recipient) : Prop :=
  ∀ key randomness stanzas labels later, (recipient.wrap key).run randomness = (.ok (stanzas, labels), later) →
    ∀ s ∈ stanzas, s.isWritable = true ∧ s.tag ≠ X25519.tag ∧ s.tag ≠ Passphrase.tag

/-- The ephemeral secrets that are drawn when a file key is wrapped, each with the key that it is drawn for. -/
def ephemerals (fileKey : FileKey) : List Party → Randomness → List (X25519.PublicKey × X25519.SecretKey)
  | [], _ => []
  | x25519 key :: parties, randomness =>
    (key, ⟨randomness.peek 32⟩) :: ephemerals fileKey parties { randomness with used := randomness.used + 32 }
  | foreign recipient :: parties, randomness =>
    ephemerals fileKey parties ((recipient.wrap fileKey).run randomness).2

section
variable {secret : X25519.SecretKey} {fileKey : FileKey}

/-- The stanzas for all parties suit the identity, and if it is one of them, a stanza gives it the file key. -/
theorem suits_wrapEach {parties : List Party} {labels? : Option LabelSet} {randomness later : Randomness}
    {stanzas : List Stanza} (foreign : ∀ r, foreign r ∈ parties → IsForeign r)
    (agreement : X25519.Agreement secret fileKey (ephemerals fileKey parties randomness))
    (wraps : (Audience.wrapEach fileKey labels? (parties.map recipient)).run randomness = (.ok stanzas, later)) :
    (∀ s ∈ stanzas, Suits (X25519.identity secret) fileKey s) ∧
      (x25519 secret.toPublic ∈ parties → ∃ s ∈ stanzas, (X25519.identity secret).unwrap s = some (.ok fileKey)) := by
  induction parties generalizing labels? randomness stanzas with
  | nil =>
    cases wraps
    exact ⟨List.forall_mem_nil _, fun member => by cases member⟩
  | cons party parties ih =>
    obtain ⟨own, labels, middle, first, rest, step, others, rfl⟩ := Audience.wrapEach_cons wraps
    have foreign_rest : ∀ r, Party.foreign r ∈ parties → IsForeign r :=
      fun r member => foreign r (List.mem_cons_of_mem party member)
    cases party with
    | x25519 key =>
      cases step
      obtain ⟨suits, opens⟩ := ih foreign_rest (agreement.of_subset fun pair => List.mem_cons_of_mem _) others
      constructor
      · exact List.forall_mem_cons.2 ⟨X25519.suits_wrapWith agreement List.mem_cons_self, suits⟩
      · intro member
        by_cases same : key = secret.toPublic
        · obtain rfl := same
          exact ⟨_, List.mem_cons_self, X25519.unwrap_own agreement List.mem_cons_self⟩
        · rcases List.mem_cons.1 member with equal | member
          · injection equal with equal
            exact absurd equal.symm same
          · obtain ⟨s, found, unwraps⟩ := opens member
            exact ⟨s, List.mem_cons_of_mem _ found, unwraps⟩
    | foreign recipient =>
      have next : ((recipient.wrap fileKey).run randomness).2 = middle := congrArg Prod.snd step
      rw [ephemerals, next] at agreement
      obtain ⟨suits, opens⟩ := ih foreign_rest agreement others
      constructor
      · intro s member
        rcases List.mem_append.1 member with member | member
        · obtain ⟨writable, other, shareable⟩ := foreign recipient List.mem_cons_self _ _ _ _ _ step s member
          exact ⟨writable, shareable, .inl (X25519.unwrap_of_tag other)⟩
        · exact suits s member
      · intro member
        rcases List.mem_cons.1 member with equal | member
        · cases equal
        · obtain ⟨s, found, unwraps⟩ := opens member
          exact ⟨s, List.mem_append_right own found, unwraps⟩

end

end Party

/-- The identity belongs to one of the recipients: it has the secret of a key, or knows the passphrase and accepts the
    work factor. -/
inductive Corresponds (randomness : Randomness) : List Recipient → Identity → Prop
  | x25519 {parties : List Party} {secret : X25519.SecretKey} (member : .x25519 secret.toPublic ∈ parties)
    (foreign : ∀ r, .foreign r ∈ parties → Party.IsForeign r)
    (agreement : X25519.Agreement secret (randomness.peek 16)
      (Party.ephemerals (randomness.peek 16) parties randomness.afterFileKey)) :
    Corresponds randomness (parties.map Party.recipient) (X25519.identity secret)
  | passphrase (text : String) {workFactor max : WorkFactor} (le : workFactor.exponent ≤ max.exponent) :
    Corresponds randomness [Passphrase.recipient text workFactor] (Passphrase.identity text max)

/-- An identity that corresponds to a recipient unwraps the file key of the header that was prepared. -/
theorem Corresponds.opens {recipients : List Recipient} {identity : Identity} {randomness : Randomness} {p : Prologue}
    (corresponds : Corresponds randomness recipients identity) (prepares : Prepares recipients randomness p) :
    p.header.isWritable = true ∧ p.header.passphraseAlone = true ∧
      ∃ key, identity.unwrapAll p.header.recipients = .ok key ∧ p.header.hasMac key = true ∧
        p.payloadKey = key.payloadKey p.nonce := by
  obtain ⟨stanzas, later, wraps, header, derived⟩ := stanzas_of_prepares prepares
  have right : p.header.hasMac (randomness.peek 16) = true := by
    rw [header]
    exact decide_eq_true rfl
  have held : p.header.recipients = stanzas := by
    rw [header]
    rfl
  rw [Header.isWritable, Header.passphraseAlone, Header.hasPassphrase, held]
  cases corresponds with
  | @x25519 parties secret member foreign agreement =>
    obtain ⟨suits, opens⟩ := Party.suits_wrapEach foreign agreement wraps
    refine ⟨List.all_eq_true.2 fun s found => (suits s found).writable, ?_, _,
      Identity.unwrapFirst_of_suits suits (opens member), right, derived⟩
    have none : (stanzas.any fun s => s.tag = Header.passphraseTag) = false := by
      refine List.any_eq_false.2 fun s found => ?_
      exact mt of_decide_eq_true (suits s found).shareable
    rw [none]
    rfl
  | @passphrase text workFactor max le =>
    obtain ⟨own, labels, middle, first, rest, step, others, rfl⟩ := Audience.wrapEach_cons wraps
    cases step
    cases others
    refine ⟨?_, ?_, _, ?_, right, derived⟩
    · exact List.all_eq_true.2 fun s found => by
        rw [List.mem_singleton.1 found]
        exact Passphrase.isWritable_wrapWith _ text workFactor _
    · simp
    · show (Passphrase.identity text max).unwrapFirst _ = _
      exact Identity.unwrapFirst_append (List.forall_mem_nil _) (Passphrase.unwrap_wrapWith _ text le _)

end AgeCrypt
