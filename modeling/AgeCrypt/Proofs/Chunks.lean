import AgeCrypt.Payload.Chunk
import AgeCrypt.Proofs.Numerals
import AgeCrypt.Proofs.Pieces

/-!
# Payloads chunk by chunk

What an encrypted payload yields, chunk by chunk and without any reader: the chunks before the first one that is
rejected, and why that one is (`Chunk.openFrom`). Under a cipher that opens exactly what it encrypts, a payload
that opens to its end is the layout of its chunks (`Chunk.layoutFrom_of_openFrom`), and the layout of a payload
opens to its chunks (`Chunk.openFrom_layoutFrom`). Where nothing else opens than what was encrypted of one
payload, every byte string opens to chunks at the start of that payload (`Chunk.openFrom_of_opensOnly`).
-/

namespace AgeCrypt

namespace ChunkNonce

theorem range_eq : range = 2 ^ 88 := rfl

theorem bigEndian_injective {width m n : Nat} (small_m : m < 256 ^ width) (small_n : n < 256 ^ width)
    (same : bigEndian width m = bigEndian width n) : m = n := by
  have little := congrArg ofLittleEndian (List.reverse_inj.1 same)
  rwa [ofLittleEndian_littleEndian, ofLittleEndian_littleEndian, Nat.mod_eq_of_lt small_m,
    Nat.mod_eq_of_lt small_n] at little

/-- Two nonces of the cipher differ if their numbers or their flags do. -/
theorem toBlock_injective {m n : ChunkNonce} (small_m : m.counter < range) (small_n : n.counter < range)
    (same : m.toBlock = n.toBlock) : m = n := by
  obtain ⟨i, a⟩ := m
  obtain ⟨j, b⟩ := n
  have bytes := congrArg Block.bytes same
  obtain ⟨numbers, flags⟩ := List.append_inj bytes (by simp)
  have counters : i = j := bigEndian_injective small_m small_n numbers
  have last : a = b := by
    revert flags
    cases a <;> cases b <;> simp
  rw [counters, last]

end ChunkNonce

/-- What is encrypted is never empty, since it has a tag. -/
theorem Cipher.encrypt_ne_nil (cipher : Cipher) (nonce : Block 12) (message : Bytes) : cipher.encrypt nonce message ≠ [] := by
  intro none
  have total := cipher.length_encrypt nonce message
  rw [none, List.length_nil] at total
  exact Nat.succ_ne_zero _ total.symm

/-- The cipher opens what was encrypted with some nonces, and opens nothing else. -/
structure Cipher.OpensOnly (cipher : Cipher) (seals : List (ChunkNonce × Bytes)) : Prop where
  inverts : ∀ nonce message, (nonce, message) ∈ seals →
    cipher.decrypt nonce.toBlock (cipher.encrypt nonce.toBlock message) = some message
  only : ∀ block sealed message, cipher.decrypt block sealed = some message →
    ∃ nonce, (nonce, message) ∈ seals ∧ block = nonce.toBlock ∧ sealed = cipher.encrypt nonce.toBlock message

namespace Chunk

/-- The nonce under which a chunk is encrypted, also if there is none behind it, or why it is not encrypted. -/
def nonceOf (nonce : ChunkNonce) (chunk : Bytes) (last : Bool) : Except PayloadError ChunkNonce :=
  if nonce.last then .error .alreadyFinished
  else if chunk = [] ∧ ¬ (last ∧ nonce.counter = 0) then .error .emptyChunk
  else .ok (nonce.marked last)

/-- Whatever is in the place of the cipher is used once, under the nonce that is the chunk's own, or not at all. -/
theorem encryptBy_eq {m : Type → Type} [Monad m] [LawfulMonad m] (encrypts : Block 12 → Bytes → m Bytes)
    (nonce : ChunkNonce) (chunk : Bytes) (last : Bool) :
    encryptBy encrypts nonce chunk last =
      match nonceOf nonce chunk last with
      | .error e => pure (.error e, nonce)
      | .ok used =>
        (fun encrypted => ((nonce.after last).1.map fun () => encrypted, (nonce.after last).2)) <$>
          encrypts used.toBlock chunk := by
  unfold encryptBy nonceOf
  by_cases finished : nonce.last = true
  · rw [if_pos finished, if_pos finished]
  by_cases empty : chunk = [] ∧ ¬ (last ∧ nonce.counter = 0)
  · rw [if_neg finished, if_neg finished, if_pos empty, if_pos empty]
  rw [if_neg finished, if_neg finished, if_neg empty, if_neg empty]
  dsimp only
  rw [map_eq_pure_bind]
  cases nonce.after last with | mk result behind =>
  cases result <;> rfl

theorem encrypt_eq (cipher : Cipher) (nonce : ChunkNonce) (chunk : Bytes) (last : Bool) :
    encrypt cipher nonce chunk last =
      match nonceOf nonce chunk last with
      | .error e => (.error e, nonce)
      | .ok used => ((nonce.after last).1.map fun () => cipher.encrypt used.toBlock chunk, (nonce.after last).2) := by
  rw [encrypt, encryptBy_eq]
  cases nonceOf nonce chunk last <;> rfl

theorem nonceOf_eq_ok {counter : Nat} {chunk : Bytes} {last : Bool} (some : chunk = [] → last = true ∧ counter = 0) :
    nonceOf ⟨counter, false⟩ chunk last = .ok ⟨counter, last⟩ := by
  have allowed : ¬ (chunk = [] ∧ ¬ (last ∧ counter = 0)) := fun ⟨empty, not⟩ => not (some empty)
  rw [nonceOf, if_neg Bool.false_ne_true, if_neg allowed]
  rfl

/-- Opens the chunk with a number: a short one as the last, a full one as one before the last and, failing that,
    as the last. -/
def open? (cipher : Cipher) (counter : Nat) (sealed : Bytes) : Option (Bytes × Bool) :=
  let openAs (last : Bool) := (cipher.decrypt (ChunkNonce.toBlock ⟨counter, last⟩) sealed).map fun chunk => (chunk, last)
  if sealed.length < encryptedSize then openAs true else (openAs false).or (openAs true)

/-- What a chunk holds that is followed by `rest`, and whether it is the last, or why it is rejected. -/
def verdict (cipher : Cipher) (counter : Nat) (chunk rest : Bytes) : Except PayloadError (Bytes × Bool) :=
  if chunk = [] then .error .truncated
  else if chunk.length = Aead.tagLength ∧ counter ≠ 0 then .error .emptyLastChunk
  else
    match open? cipher counter chunk with
    | none => .error .undecryptable
    | some (bs, false) => if counter + 1 = ChunkNonce.range then .error .tooManyChunks else .ok (bs, false)
    | some (bs, true) => if rest = [] then .ok (bs, true) else .error .trailingData

/-- How a verdict turns out if the failure `stop?` comes behind the payload: it shows as soon as more bytes are asked
    for than come before it, for a short chunk before there is a verdict. -/
def settle (stop? : Option ChannelError) (short : Bool) (verdict : Except PayloadError (Bytes × Bool)) :
    Except ChannelError (Bytes × Bool) :=
  match stop?, short, verdict with
  | some e, true, _ => .error e
  | some e, false, .ok (_, true) => .error e
  | _, _, verdict => verdict.mapError .payload

/-- The next chunk of a payload behind which comes the failure `stop?`, if there is one. -/
def next (cipher : Cipher) (stop? : Option ChannelError) (counter : Nat) (sealed : Bytes) :
    Except ChannelError (Bytes × Bool) :=
  settle stop? (sealed.length < encryptedSize)
    (verdict cipher counter (sealed.take encryptedSize) (sealed.drop encryptedSize))

theorem some_of_next {cipher : Cipher} {stop? : Option ChannelError} {counter : Nat} {sealed : Bytes}
    {opened : Bytes × Bool} (opens : next cipher stop? counter sealed = .ok opened) : sealed ≠ [] := by
  rintro rfl
  cases stop? with
  | none => cases opens
  | some e => cases opens

/-- The chunks that a payload yields from the one with a given number on, and how that ends: with the last one, or
    because the next one is rejected. -/
def openFrom (cipher : Cipher) (stop? : Option ChannelError) (counter : Nat) (sealed : Bytes) :
    List Bytes × Option ChannelError :=
  match _next : next cipher stop? counter sealed with
  | .error e => ([], some e)
  | .ok (chunk, true) => ([chunk], none)
  | .ok (chunk, false) =>
    let (chunks, ending?) := openFrom cipher stop? (counter + 1) (sealed.drop encryptedSize)
    (chunk :: chunks, ending?)
termination_by sealed.length
decreasing_by
  have : sealed.length ≠ 0 := fun e => some_of_next _next (List.length_eq_zero_iff.1 e)
  simp only [List.length_drop, encryptedSize, size]
  omega

section
variable {cipher : Cipher} {stop? : Option ChannelError} {counter : Nat} {sealed chunk : Bytes}

theorem open?_eq_some_false_iff : open? cipher counter sealed = some (chunk, false) ↔
    encryptedSize ≤ sealed.length ∧ cipher.decrypt (ChunkNonce.toBlock ⟨counter, false⟩) sealed = some chunk := by
  unfold open?
  by_cases short : sealed.length < encryptedSize
  · rw [if_pos short]
    simp [Nat.not_le.2 short]
  · rw [if_neg short]
    simp [Option.or_eq_some_iff, Nat.not_lt.1 short]

theorem open?_eq_some_true_iff : open? cipher counter sealed = some (chunk, true) ↔
    cipher.decrypt (ChunkNonce.toBlock ⟨counter, true⟩) sealed = some chunk ∧
      (encryptedSize ≤ sealed.length → cipher.decrypt (ChunkNonce.toBlock ⟨counter, false⟩) sealed = none) := by
  unfold open?
  by_cases short : sealed.length < encryptedSize
  · rw [if_pos short]
    simp [Nat.not_le.2 short]
  · rw [if_neg short]
    simp [Option.or_eq_some_iff, Nat.not_lt.1 short, and_comm]

variable {rest bs : Bytes}

theorem verdict_eq_ok_false_iff : verdict cipher counter chunk rest = .ok (bs, false) ↔
    encryptedSize ≤ chunk.length ∧ counter + 1 ≠ ChunkNonce.range ∧
      cipher.decrypt (ChunkNonce.toBlock ⟨counter, false⟩) chunk = some bs := by
  constructor
  · intro accepted
    unfold verdict at accepted
    split at accepted
    · cases accepted
    split at accepted
    · cases accepted
    split at accepted
    · cases accepted
    · rename_i opened
      split at accepted
      · cases accepted
      · rename_i numbered
        cases accepted
        obtain ⟨full, opens⟩ := open?_eq_some_false_iff.1 opened
        exact ⟨full, numbered, opens⟩
    · split at accepted <;> cases accepted
  · rintro ⟨full, numbered, opens⟩
    have some : chunk ≠ [] := by
      rintro rfl
      simp [encryptedSize, size] at full
    have long : ¬ (chunk.length = Aead.tagLength ∧ counter ≠ 0) := by
      simp only [encryptedSize, size, Aead.tagLength] at full ⊢
      omega
    rw [verdict, if_neg some, if_neg long, open?_eq_some_false_iff.2 ⟨full, opens⟩]
    simp [numbered]

theorem verdict_eq_ok_true_iff : verdict cipher counter chunk rest = .ok (bs, true) ↔
    rest = [] ∧ (bs = [] → counter = 0) ∧ cipher.decrypt (ChunkNonce.toBlock ⟨counter, true⟩) chunk = some bs ∧
      (encryptedSize ≤ chunk.length → cipher.decrypt (ChunkNonce.toBlock ⟨counter, false⟩) chunk = none) := by
  constructor
  · intro accepted
    unfold verdict at accepted
    split at accepted
    · cases accepted
    split at accepted
    · cases accepted
    rename_i nonempty
    split at accepted
    · cases accepted
    · split at accepted <;> cases accepted
    · rename_i opened
      split at accepted
      · rename_i ended
        cases accepted
        obtain ⟨opens, only⟩ := open?_eq_some_true_iff.1 opened
        have total := cipher.length_of_decrypt opens
        refine ⟨ended, ?_, opens, only⟩
        rintro rfl
        by_cases first : counter = 0
        · exact first
        · exact absurd ⟨by simpa using total, first⟩ nonempty
      · cases accepted
  · rintro ⟨ended, first, opens, only⟩
    have total := cipher.length_of_decrypt opens
    have some : chunk ≠ [] := by
      rintro rfl
      simp [Aead.tagLength] at total
    have nonempty : ¬ (chunk.length = Aead.tagLength ∧ counter ≠ 0) := by
      rintro ⟨tag, later⟩
      exact later (first (List.length_eq_zero_iff.1 (by omega)))
    rw [verdict, if_neg some, if_neg nonempty, open?_eq_some_true_iff.2 ⟨opens, only⟩]
    simp [ended]

theorem mapError_eq_ok {α ε ε' : Type} {result : Except ε α} {f : ε → ε'} {a : α} :
    result.mapError f = .ok a ↔ result = .ok a := by
  cases result with
  | error e =>
    constructor
    · intro fails
      cases fails
    · intro fails
      cases fails
  | ok value =>
    constructor
    · rintro ⟨⟩
      rfl
    · rintro ⟨⟩
      rfl

/-- A chunk before the last is a full one that opens as such, and has a number behind it. -/
theorem next_eq_ok_false_iff : next cipher stop? counter sealed = .ok (chunk, false) ↔
    encryptedSize ≤ sealed.length ∧ counter + 1 ≠ ChunkNonce.range ∧
      cipher.decrypt (ChunkNonce.toBlock ⟨counter, false⟩) (sealed.take encryptedSize) = some chunk := by
  have full : encryptedSize ≤ (sealed.take encryptedSize).length ↔ encryptedSize ≤ sealed.length := by
    simp only [List.length_take]
    omega
  rw [← full, ← @verdict_eq_ok_false_iff cipher counter _ (sealed.drop encryptedSize)]
  unfold next settle
  constructor
  · intro accepted
    split at accepted
    · cases accepted
    · cases accepted
    · exact mapError_eq_ok.1 accepted
  · intro accepted
    have long := (verdict_eq_ok_false_iff.1 accepted).1
    rw [full] at long
    rw [accepted, decide_eq_false (Nat.not_lt.2 long)]
    cases stop? <;> rfl

theorem length_of_inner (opens : next cipher stop? counter sealed = .ok (chunk, false)) : chunk.length = size := by
  obtain ⟨long, _, decrypted⟩ := next_eq_ok_false_iff.1 opens
  have total := cipher.length_of_decrypt decrypted
  rw [List.length_take, Nat.min_eq_left long] at total
  exact (Nat.add_right_cancel total).symm

/-- The last chunk is all that is left, and is empty only as the first one. -/
theorem next_eq_ok_true_iff : next cipher stop? counter sealed = .ok (chunk, true) ↔
    stop? = none ∧ sealed.length ≤ encryptedSize ∧ (chunk = [] → counter = 0) ∧
      cipher.decrypt (ChunkNonce.toBlock ⟨counter, true⟩) sealed = some chunk ∧
      (encryptedSize ≤ sealed.length → cipher.decrypt (ChunkNonce.toBlock ⟨counter, false⟩) sealed = none) := by
  constructor
  · intro accepted
    obtain ⟨clean, accepted⟩ : stop? = none ∧
        verdict cipher counter (sealed.take encryptedSize) (sealed.drop encryptedSize) = .ok (chunk, true) := by
      cases stop? with
      | none => exact ⟨rfl, mapError_eq_ok.1 accepted⟩
      | some e =>
        unfold next settle at accepted
        split at accepted
        · cases accepted
        · cases accepted
        · rename_i fails others
          have accepted := mapError_eq_ok.1 accepted
          cases less : decide (sealed.length < encryptedSize) with
          | true => exact absurd less (fails e rfl)
          | false => exact absurd accepted (others e chunk rfl less)
    obtain ⟨ended, first, opens, only⟩ := verdict_eq_ok_true_iff.1 accepted
    have short := List.drop_eq_nil_iff.1 ended
    rw [List.take_of_length_le short] at opens only
    exact ⟨clean, short, first, opens, only⟩
  · rintro ⟨rfl, short, first, opens, only⟩
    have accepted : verdict cipher counter (sealed.take encryptedSize) (sealed.drop encryptedSize) = .ok (chunk, true) := by
      rw [verdict_eq_ok_true_iff, List.take_of_length_le short]
      exact ⟨List.drop_eq_nil_of_le short, first, opens, only⟩
    unfold next settle
    rw [accepted]
    rfl

theorem openFrom_of_error {e : ChannelError} (fails : next cipher stop? counter sealed = .error e) :
    openFrom cipher stop? counter sealed = ([], some e) := by
  rw [openFrom]
  split <;> simp_all

theorem openFrom_of_last (opens : next cipher stop? counter sealed = .ok (chunk, true)) :
    openFrom cipher stop? counter sealed = ([chunk], none) := by
  rw [openFrom]
  split <;> simp_all

theorem openFrom_of_inner (opens : next cipher stop? counter sealed = .ok (chunk, false)) :
    openFrom cipher stop? counter sealed =
      (chunk :: (openFrom cipher stop? (counter + 1) (sealed.drop encryptedSize)).1,
        (openFrom cipher stop? (counter + 1) (sealed.drop encryptedSize)).2) := by
  rw [openFrom]
  split <;> simp_all

theorem layoutFrom_cons {after : List Bytes} (some : after ≠ []) : layoutFrom cipher counter (chunk :: after) =
    cipher.encrypt (ChunkNonce.toBlock ⟨counter, false⟩) chunk ++ layoutFrom cipher (counter + 1) after := by
  cases after with
  | nil => exact absurd rfl some
  | cons next after => rfl

/-- Under a cipher that opens only what it encrypts, a payload that opens to its end is the layout of its chunks:
    full ones before a last one, which is empty only as the first one. -/
theorem layoutFrom_of_openFrom {chunks : List Bytes}
    (exact : ∀ nonce sealed message, cipher.decrypt nonce sealed = some message → sealed = cipher.encrypt nonce message)
    (opens : openFrom cipher stop? counter sealed = (chunks, none)) :
    sealed = layoutFrom cipher counter chunks ∧ stop? = none ∧
      ∃ full last, chunks = full ++ [last] ∧ (∀ piece ∈ full, piece.length = size) ∧ last.length ≤ size ∧
        (last = [] → full = [] ∧ counter = 0) := by
  fun_induction openFrom cipher stop? counter sealed generalizing chunks with
  | case1 => cases opens
  | case2 counter sealed chunk accepted =>
    cases opens
    obtain ⟨clean, short, first, opened, _⟩ := next_eq_ok_true_iff.1 accepted
    have total := cipher.length_of_decrypt opened
    refine ⟨exact _ _ _ opened, clean, [], chunk, rfl, by simp, ?_, fun none => ⟨rfl, first none⟩⟩
    simp only [encryptedSize] at short
    omega
  | case3 counter sealed chunk accepted chunks' ending? tail ih =>
    cases opens
    obtain ⟨_, _, opened⟩ := next_eq_ok_false_iff.1 accepted
    obtain ⟨layout, clean, full, last, rfl, full_length, last_length, first⟩ := ih tail
    have longer : ∀ piece ∈ chunk :: full, piece.length = size :=
      List.forall_mem_cons.2 ⟨length_of_inner accepted, full_length⟩
    refine ⟨?_, clean, chunk :: full, last, rfl, longer, last_length, ?_⟩
    · rw [layoutFrom_cons (by simp), ← layout, ← exact _ _ _ opened, List.take_append_drop]
    · intro none
      exact absurd (first none).2 (Nat.succ_ne_zero counter)

theorem length_of_openFrom {chunks : List Bytes} {ending? : Option ChannelError} (small : counter < ChunkNonce.range)
    (opens : openFrom cipher stop? counter sealed = (chunks, ending?)) : counter + chunks.length ≤ ChunkNonce.range := by
  fun_induction openFrom cipher stop? counter sealed generalizing chunks ending? with
  | case1 =>
    cases opens
    exact Nat.le_of_lt small
  | case2 =>
    cases opens
    exact small
  | case3 counter sealed chunk accepted chunks' ending tail ih =>
    cases opens
    have numbered := (next_eq_ok_false_iff.1 accepted).2.1
    have le := ih (by omega) tail
    rw [List.length_cons]
    omega

/-- The layout of a payload opens to its chunks, unless its last chunk is full and opens as one before the last. -/
theorem openFrom_layoutFrom {full : List Bytes} {last : Bytes} (isCut : IsCut size full last)
    (inverts : ∀ nonce message, cipher.decrypt nonce (cipher.encrypt nonce message) = some message)
    (marked : last.length = size → cipher.decrypt (ChunkNonce.toBlock ⟨counter + full.length, false⟩)
      (cipher.encrypt (ChunkNonce.toBlock ⟨counter + full.length, true⟩) last) = none)
    (first : last = [] → counter = 0) (few : counter + full.length < ChunkNonce.range) :
    openFrom cipher none counter (layoutFrom cipher counter (full ++ [last])) = (full ++ [last], none) := by
  induction full generalizing counter with
  | nil =>
    have total := cipher.length_encrypt (ChunkNonce.toBlock ⟨counter, true⟩) last
    have le := isCut.last_length
    refine openFrom_of_last (next_eq_ok_true_iff.2 ⟨rfl, ?_, first, inverts _ _, ?_⟩)
    · show (cipher.encrypt _ last).length ≤ encryptedSize
      rw [total, encryptedSize]
      omega
    · intro long
      refine marked (Nat.le_antisymm le ?_)
      change encryptedSize ≤ (cipher.encrypt _ last).length at long
      rw [total, encryptedSize] at long
      omega
  | cons chunk full ih =>
    have rest : full ++ [last] ≠ [] := by simp
    have total := cipher.length_encrypt (ChunkNonce.toBlock ⟨counter, false⟩) chunk
    have size_eq := isCut.full_length chunk List.mem_cons_self
    have sealed_size : (cipher.encrypt (ChunkNonce.toBlock ⟨counter, false⟩) chunk).length = encryptedSize := by
      rw [total, size_eq, encryptedSize]
    have some : last ≠ [] := fun none => by simpa using isCut.alone none
    simp only [List.length_cons] at few marked
    have tail := @ih (counter + 1)
      ⟨fun piece member => isCut.full_length piece (List.mem_cons_of_mem chunk member), isCut.last_length,
        fun none => absurd none some⟩
      (by rwa [Nat.add_right_comm, Nat.add_assoc]) (fun none => absurd none some) (by omega)
    have accepted : next cipher none counter (layoutFrom cipher counter (chunk :: (full ++ [last]))) = .ok (chunk, false) := by
      rw [next_eq_ok_false_iff, layoutFrom_cons rest, List.take_left' sealed_size]
      refine ⟨?_, by omega, inverts _ _⟩
      rw [List.length_append, sealed_size]
      omega
    rw [List.cons_append, openFrom_of_inner accepted, layoutFrom_cons rest, List.drop_left' sealed_size, tail]

theorem flatten_split (payload : Bytes) : (split payload).flatten = payload := by
  obtain ⟨full, last, chunks, _, whole⟩ := exists_cut size_pos payload
  rw [show split payload = _ from chunks, List.flatten_append, List.flatten_singleton]
  exact whole.symm

theorem split_of_le {payload : Bytes} (le : payload.length ≤ size) : split payload = [payload] :=
  cut_flatten (n := size) ⟨List.forall_mem_nil _, le, fun _ => rfl⟩

/-- The last chunk does not open as one before the last, if it is a full one. -/
def Marked (cipher : Cipher) (payload : Bytes) : Prop :=
  ∀ full last, split payload = full ++ [last] → last.length = size →
    cipher.decrypt (ChunkNonce.toBlock ⟨full.length, false⟩)
      (cipher.encrypt (ChunkNonce.toBlock ⟨full.length, true⟩) last) = none

theorem marked_of_short (cipher : Cipher) {payload : Bytes} (short : payload.length < size) : Marked cipher payload := by
  intro full last chunks whole
  have total := congrArg List.length (flatten_split payload)
  rw [chunks, List.flatten_append, List.length_append, List.flatten_singleton, whole] at total
  omega

/-- The layout of a payload opens to its chunks. -/
theorem openFrom_layout {payload : Bytes}
    (inverts : ∀ nonce message, cipher.decrypt nonce (cipher.encrypt nonce message) = some message)
    (marked : Marked cipher payload) (few : (split payload).length ≤ ChunkNonce.range) :
    openFrom cipher none 0 (layout cipher payload) = (split payload, none) := by
  obtain ⟨full, last, chunks, isCut, _⟩ := exists_cut size_pos payload
  have split_eq : split payload = full ++ [last] := chunks
  rw [split_eq, List.length_append, List.length_singleton] at few
  rw [layout, split_eq]
  refine openFrom_layoutFrom isCut inverts ?_ (fun _ => rfl) (by omega)
  rw [Nat.zero_add]
  exact marked full last split_eq

/-! ## What was encrypted of a payload -/

/-- The chunks of a payload from one with a given number on, with the nonces under which they are encrypted. -/
def sealsFrom : (counter : Nat) → List Bytes → List (ChunkNonce × Bytes)
  | _, [] => []
  | counter, [chunk] => [(⟨counter, true⟩, chunk)]
  | counter, chunk :: rest => (⟨counter, false⟩, chunk) :: sealsFrom (counter + 1) rest

theorem mem_sealsFrom {counter : Nat} {chunks : List Bytes} {nonce : ChunkNonce} {chunk : Bytes}
    (member : (nonce, chunk) ∈ sealsFrom counter chunks) :
    ∃ before after, chunks = before ++ chunk :: after ∧ nonce.counter = counter + before.length ∧
      (nonce.last = true ↔ after = []) := by
  fun_induction sealsFrom counter chunks with
  | case1 => simp at member
  | case2 counter other =>
    obtain ⟨rfl, rfl⟩ := Prod.mk.inj (List.mem_singleton.1 member)
    exact ⟨[], [], rfl, rfl, by simp⟩
  | case3 counter other rest some ih =>
    rcases List.mem_cons.1 member with same | member
    · obtain ⟨rfl, rfl⟩ := Prod.mk.inj same
      exact ⟨[], rest, rfl, rfl, iff_of_false Bool.false_ne_true some⟩
    · obtain ⟨before, after, rfl, number, last⟩ := ih member
      refine ⟨other :: before, after, rfl, ?_, last⟩
      rw [number, List.length_cons, Nat.add_right_comm, Nat.add_assoc]

end

section
variable {cipher : Cipher} {chunks : List Bytes}

/-- A nonce of the cipher opens the chunk with its number alone, and as the last one exactly if it is the last. -/
theorem opened_of_opensOnly (authentic : cipher.OpensOnly (sealsFrom 0 chunks)) (few : chunks.length ≤ ChunkNonce.range)
    (nonce : ChunkNonce) (small : nonce.counter < ChunkNonce.range) {sealed chunk : Bytes}
    (opens : cipher.decrypt nonce.toBlock sealed = some chunk) :
    sealed = cipher.encrypt nonce.toBlock chunk ∧
      ∃ after, chunks.drop nonce.counter = chunk :: after ∧ (nonce.last = true ↔ after = []) := by
  obtain ⟨other, member, same, sealed_eq⟩ := authentic.only _ _ _ opens
  obtain ⟨before, after, chunks_eq, number, last⟩ := mem_sealsFrom member
  rw [Nat.zero_add] at number
  have other_small : other.counter < ChunkNonce.range := by
    rw [number]
    refine Nat.lt_of_lt_of_le ?_ few
    rw [chunks_eq, List.length_append, List.length_cons]
    omega
  obtain rfl := ChunkNonce.toBlock_injective small other_small same
  refine ⟨sealed_eq, after, ?_, last⟩
  rw [chunks_eq, number, List.drop_left]

/-- Where nothing else opens than what was encrypted of a payload, every byte string opens to chunks at the start of
    that payload, and to all of them only if it is their layout. -/
theorem openFrom_of_opensOnly (authentic : cipher.OpensOnly (sealsFrom 0 chunks)) (few : chunks.length ≤ ChunkNonce.range)
    {stop? : Option ChannelError} {counter : Nat} (small : counter < ChunkNonce.range) {sealed : Bytes}
    {opened : List Bytes} {ending? : Option ChannelError}
    (opens : openFrom cipher stop? counter sealed = (opened, ending?)) :
    opened <+: chunks.drop counter ∧
      (ending? = none → opened = chunks.drop counter ∧ sealed = layoutFrom cipher counter opened) := by
  fun_induction openFrom cipher stop? counter sealed generalizing opened ending? with
  | case1 =>
    cases opens
    exact ⟨List.nil_prefix, fun none => by cases none⟩
  | case2 counter sealed chunk accepted =>
    cases opens
    obtain ⟨_, _, _, decrypted, _⟩ := next_eq_ok_true_iff.1 accepted
    obtain ⟨sealed_eq, after, chunks_eq, last⟩ := opened_of_opensOnly authentic few ⟨counter, true⟩ small decrypted
    obtain rfl := last.1 rfl
    rw [show chunks.drop counter = [chunk] from chunks_eq]
    exact ⟨List.prefix_rfl, fun _ => ⟨rfl, sealed_eq⟩⟩
  | case3 counter sealed chunk accepted others ending tail ih =>
    cases opens
    obtain ⟨long, numbered, decrypted⟩ := next_eq_ok_false_iff.1 accepted
    obtain ⟨sealed_eq, after, chunks_eq, last⟩ := opened_of_opensOnly authentic few ⟨counter, false⟩ small decrypted
    change chunks.drop counter = chunk :: after at chunks_eq
    have after_eq : chunks.drop (counter + 1) = after := by
      rw [← List.drop_drop, chunks_eq]
      rfl
    obtain ⟨start, whole⟩ := ih (by omega) tail
    rw [after_eq] at start whole
    rw [chunks_eq]
    refine ⟨List.cons_prefix_cons.2 ⟨rfl, start⟩, ?_⟩
    intro clean
    obtain ⟨rfl, sealed_rest⟩ := whole clean
    have some : others ≠ [] := fun none => Bool.false_ne_true (last.2 none)
    refine ⟨rfl, ?_⟩
    rw [layoutFrom_cons some, ← sealed_rest, ← sealed_eq, List.take_append_drop]

end

end Chunk

/-- A payload with no more chunks than there are numbers. -/
theorem length_le_of_split {payload : Bytes} (few : (Chunk.split payload).length ≤ ChunkNonce.range) :
    payload.length ≤ ChunkNonce.range * Chunk.size := by
  obtain ⟨full, last, split, isCut, rfl⟩ := exists_cut Chunk.size_pos payload
  have le := isCut.last_length
  rw [show Chunk.split _ = _ from split, List.length_append, List.length_singleton] at few
  have total := length_cut_flatten isCut
  have := Nat.mul_le_mul_left Chunk.size few
  rw [total, Nat.mul_comm ChunkNonce.range]
  rw [Nat.mul_add] at this
  omega

end AgeCrypt
