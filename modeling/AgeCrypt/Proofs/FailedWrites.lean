import AgeCrypt.Proofs.Armoring
import AgeCrypt.Proofs.NonceUse
import AgeCrypt.Proofs.PayloadWriting

/-!
# What a failed write leaves behind

Gathering takes bytes by passing full pieces on and holding the rest (`Takes`). It fails exactly where a full piece is refused
while more bytes are there (`gather_eq_error_iff`), and then it has taken some of the bytes, unless the piece that is refused
was full before (`Refusal.taken_eq_nil_iff`). What was taken is not given back, so that it comes twice when the same bytes are
offered again (`Refusal.again`), and the number of a payload's next chunk has moved on (`ChunkOutput.nonce_of_refusal`).
Main statement: `Writer.taken_of_failure`.
-/

namespace AgeCrypt

section
variable {σ : Type} {size : Nat} {pos : 0 < size} {pass : σ → Bytes → Except ChannelError Unit × σ} {s t u : σ}
  {held held' held'' bs taken : Bytes} {passed : List Bytes} {e : ChannelError}

/-- Pieces are passed on, one after the other. -/
inductive PassedOn (pass : σ → Bytes → Except ChannelError Unit × σ) : σ → List Bytes → σ → Prop
  | nil (s : σ) : PassedOn pass s [] s
  | cons {s t u : σ} {piece : Bytes} {pieces : List Bytes} (step : pass s piece = (.ok (), t))
      (rest : PassedOn pass t pieces u) : PassedOn pass s (piece :: pieces) u

/-- Bytes are taken behind those that are held: full pieces are passed on, and the rest is held. -/
structure Takes (size : Nat) (pass : σ → Bytes → Except ChannelError Unit × σ) (s : σ) (held taken : Bytes)
    (passed : List Bytes) (t : σ) (held' : Bytes) : Prop where
  passes : PassedOn pass s passed t
  full_length : ∀ piece ∈ passed, piece.length = size
  cut : held ++ taken = passed.flatten ++ held'

theorem Takes.nil (s : σ) (held : Bytes) : Takes size pass s held [] [] s held :=
  ⟨.nil s, List.forall_mem_nil _, List.append_nil held⟩

/-- A full piece that is passed on comes before those that are taken behind it. -/
theorem Takes.cons (whole : held.length = size) (step : pass s held = (.ok (), t))
    (takes : Takes size pass t [] taken passed u held') : Takes size pass s held taken (held :: passed) u held' where
  passes := .cons step takes.passes
  full_length := List.forall_mem_cons.2 ⟨whole, takes.full_length⟩
  cut := by
    rw [List.flatten_cons, List.append_assoc, ← takes.cut, List.nil_append]

/-- Bytes that are held with others count as taken. -/
theorem Takes.hold {first : Bytes} (takes : Takes size pass s (held ++ first) taken passed t held') :
    Takes size pass s held (first ++ taken) passed t held' where
  passes := takes.passes
  full_length := takes.full_length
  cut := by rw [← List.append_assoc, takes.cut]

/-- How gathering `bs` fails: some bytes are taken, so that a full piece is held, and that is refused while more bytes are
    there. -/
structure Refusal (size : Nat) (pass : σ → Bytes → Except ChannelError Unit × σ) (s : σ) (held bs taken : Bytes)
    (passed : List Bytes) (e : ChannelError) (t : σ) (held' : Bytes) : Prop where
  more : ∃ rest, rest ≠ [] ∧ bs = taken ++ rest
  whole : held'.length = size
  refused : ∃ s', Takes size pass s held taken passed s' held' ∧ pass s' held' = (.error e, t)

theorem length_hold_le (le : held.length ≤ size) (bs : Bytes) : (held ++ bs.take (size - held.length)).length ≤ size := by
  rw [List.length_append, List.length_take]
  omega

theorem length_held_gather_le (le : held.length ≤ size) : (gather size pos pass s held bs).held.length ≤ size := by
  fun_induction gather size pos pass s held bs with
  | case1 s held => exact le
  | case2 s held bs some whole e s' step => exact le
  | case3 s held bs some whole s' step ih => exact ih (Nat.zero_le size)
  | case4 s held bs some short ih => exact ih (length_hold_le le bs)

/-- Gathering takes all bytes or fails. -/
theorem gather_cases (le : held.length ≤ size) :
    (∃ passed t held', gather size pos pass s held bs = ⟨.ok (), t, held'⟩ ∧ Takes size pass s held bs passed t held') ∨
    (∃ e taken passed t held', gather size pos pass s held bs = ⟨.error e, t, held'⟩ ∧
      Refusal size pass s held bs taken passed e t held') := by
  fun_induction gather size pos pass s held bs with
  | case1 s held => exact .inl ⟨[], s, held, rfl, .nil s held⟩
  | case2 s held bs some whole e s' step =>
    have size_eq := Nat.le_antisymm le whole
    exact .inr ⟨e, [], [], s', held, rfl, ⟨bs, some, rfl⟩, size_eq, s, .nil s held, step⟩
  | case3 s held bs some whole s' step ih =>
    have size_eq := Nat.le_antisymm le whole
    rcases ih (Nat.zero_le size) with ⟨passed, t, held', gathers, takes⟩ |
      ⟨e, taken, passed, t, held', gathers, more, last, u, takes, refuses⟩
    · exact .inl ⟨held :: passed, t, held', gathers, takes.cons size_eq step⟩
    · exact .inr ⟨e, taken, held :: passed, t, held', gathers, more, last, u, takes.cons size_eq step, refuses⟩
  | case4 s held bs some short ih =>
    have split := List.take_append_drop (size - held.length) bs
    rcases ih (length_hold_le le bs) with ⟨passed, t, held', gathers, takes⟩ |
      ⟨e, taken, passed, t, held', gathers, ⟨rest, left, cut⟩, last, u, takes, refuses⟩
    · have takes := takes.hold
      rw [split] at takes
      exact .inl ⟨passed, t, held', gathers, takes⟩
    · have cut : bs = bs.take (size - held.length) ++ taken ++ rest := by rw [List.append_assoc, ← cut, split]
      exact .inr ⟨e, bs.take (size - held.length) ++ taken, passed, t, held', gathers, ⟨rest, left, cut⟩, last, u,
        takes.hold, refuses⟩

/-- A full piece that is passed on is held no longer. -/
theorem gather_pass (whole : held.length = size) (more : bs ≠ []) (step : pass s held = (.ok (), t)) :
    gather size pos pass s held bs = gather size pos pass t [] bs := by
  rw [gather, dif_neg more, if_pos (Nat.le_of_eq whole.symm), step]

/-- Bytes that fill up a piece are held with it. -/
theorem gather_fill (s : σ) {piece first : Bytes} (whole : piece.length = size) (fills : held ++ first = piece)
    (bs : Bytes) : gather size pos pass s held (first ++ bs) = gather size pos pass s piece bs := by
  by_cases none : first = []
  · rw [none, List.append_nil] at fills
    rw [none, fills, List.nil_append]
  have length : held.length + first.length = size := by rw [← List.length_append, fills, whole]
  have positive := List.length_pos_iff.2 none
  have room : size - held.length = first.length := by omega
  rw [gather, dif_neg (List.append_ne_nil_of_left_ne_nil none bs), if_neg (by omega), room, List.take_left, List.drop_left,
    fills]

/-- Of bytes that are more than a piece, the first ones are held when they are refused. -/
theorem gather_of_refused_first {piece rest : Bytes} (whole : piece.length = size) (more : rest ≠ [])
    (refused : pass s piece = (.error e, t)) : gather size pos pass s [] (piece ++ rest) = ⟨.error e, t, piece⟩ := by
  rw [gather_fill s whole (List.nil_append piece), gather_of_refused more whole refused]

/-- Where these bytes are offered again, the piece that is held is passed on, and so is the one that they begin with. -/
theorem gather_again {piece rest : Bytes} (whole : piece.length = size) (more : rest ≠ []) (le : rest.length ≤ size)
    (first : pass s piece = (.ok (), t)) (second : pass t piece = (.ok (), u)) :
    gather size pos pass s piece (piece ++ rest) = ⟨.ok (), u, rest⟩ := by
  rw [gather_pass whole (List.append_ne_nil_of_right_ne_nil piece more) first, gather_fill t whole (List.nil_append piece),
    gather_pass whole more second, gather_of_le u (by rwa [List.length_nil, Nat.zero_add]), List.nil_append]

/-- The first of the bytes that are taken fill up the first piece. -/
theorem exists_first {piece behind : Bytes} (le : held.length ≤ size) (whole : piece.length = size)
    (cut : held ++ taken = piece ++ behind) : ∃ first, taken = first ++ behind ∧ held ++ first = piece := by
  have prefixes : held <+: piece :=
    List.prefix_of_prefix_length_le ⟨taken, cut⟩ (List.prefix_append _ _) (whole ▸ le)
  obtain ⟨first, rfl⟩ := prefixes
  rw [List.append_assoc] at cut
  exact ⟨first, List.append_cancel_left cut, rfl⟩

/-- Where bytes are taken and a full piece is held then, gathering goes on from there. -/
theorem gather_of_takes (le : held.length ≤ size) (takes : Takes size pass s held taken passed t held')
    (whole : held'.length = size) {rest : Bytes} (more : rest ≠ []) :
    gather size pos pass s held (taken ++ rest) = gather size pos pass t held' rest := by
  obtain ⟨passes, full_length, cut⟩ := takes
  -- Along the pieces that are passed on: what is held before each is a beginning of it, and nothing is held behind it.
  induction passes generalizing held taken with
  | nil s => exact gather_fill s whole cut rest
  | @cons s t u piece pieces step _ ih =>
    obtain ⟨size_eq, others⟩ := List.forall_mem_cons.1 full_length
    rw [List.flatten_cons, List.append_assoc] at cut
    obtain ⟨first, rfl, fills⟩ := exists_first le size_eq cut
    have some := List.append_ne_nil_of_right_ne_nil (pieces.flatten ++ held') more
    rw [List.append_assoc, gather_fill s size_eq fills, gather_pass size_eq some step]
    exact ih (Nat.zero_le size) others rfl

/-- Gathering fails exactly where a full piece is refused. -/
theorem gather_eq_error_iff (le : held.length ≤ size) : gather size pos pass s held bs = ⟨.error e, t, held'⟩ ↔
    ∃ taken passed, Refusal size pass s held bs taken passed e t held' := by
  constructor
  · intro fails
    rcases @gather_cases σ size pos pass s held bs le with ⟨_, _, _, gathers, _⟩ |
      ⟨_, taken, passed, _, _, gathers, refusal⟩
    · rw [fails] at gathers
      cases gathers
    · rw [fails] at gathers
      cases gathers
      exact ⟨taken, passed, refusal⟩
  · rintro ⟨taken, passed, ⟨rest, left, rfl⟩, whole, s', takes, refuses⟩
    rw [gather_of_takes le takes whole left, gather_of_refused left whole refuses]

/-- Gathering that does not fail takes all bytes. -/
theorem takes_of_gather (le : held.length ≤ size) (gathers : gather size pos pass s held bs = ⟨.ok (), t, held'⟩) :
    ∃ passed, Takes size pass s held bs passed t held' := by
  rcases @gather_cases σ size pos pass s held bs le with ⟨passed, _, _, same, takes⟩ | ⟨_, _, _, _, _, same, _⟩
  · rw [gathers] at same
    cases same
    exact ⟨passed, takes⟩
  · rw [gathers] at same
    cases same

namespace Refusal

/-- The bytes that were held and those that were taken are the pieces that were passed on and the one that was refused. -/
theorem length_taken (refusal : Refusal size pass s held bs taken passed e t held') :
    held.length + taken.length = size * passed.length + size := by
  obtain ⟨_, takes, _⟩ := refusal.refused
  have lengths := congrArg List.length takes.cut
  rwa [List.length_append, List.length_append, length_flatten_of_full takes.full_length, refusal.whole] at lengths

/-- No byte was taken exactly if a full piece was held and was refused at once. -/
theorem taken_eq_nil_iff (pos : 0 < size) (le : held.length ≤ size)
    (refusal : Refusal size pass s held bs taken passed e t held') :
    taken = [] ↔ held.length = size ∧ passed = [] := by
  have lengths := refusal.length_taken
  constructor
  · rintro rfl
    rw [List.length_nil, Nat.add_zero] at lengths
    have few : size * passed.length = 0 := by omega
    exact ⟨by omega, List.length_eq_zero_iff.1 ((Nat.mul_eq_zero.1 few).resolve_left (Nat.ne_of_gt pos))⟩
  · rintro ⟨whole, rfl⟩
    rw [whole, List.length_nil, Nat.mul_zero, Nat.zero_add] at lengths
    exact List.length_eq_zero_iff.1 (by omega)

theorem length_lt (refusal : Refusal size pass s held bs taken passed e t held') :
    size * passed.length + size < held.length + bs.length := by
  rw [← refusal.length_taken]
  obtain ⟨rest, some, rfl⟩ := refusal.more
  have positive := List.length_pos_iff.2 some
  rw [List.length_append]
  omega

/-- If no more than two pieces are there, the first one is refused. -/
theorem held_of_short (refusal : Refusal size pass s held bs taken passed e t held')
    (short : held.length + bs.length ≤ size + size) : passed = [] ∧ held' = held ++ taken := by
  have lt := refusal.length_lt
  have few : passed.length < 1 := Nat.lt_of_mul_lt_mul_left (a := size) (by omega)
  obtain rfl : passed = [] := List.length_eq_zero_iff.1 (by omega)
  obtain ⟨_, takes, _⟩ := refusal.refused
  exact ⟨rfl, takes.cut.symm⟩

/-- When the same bytes are offered again and taken, those that were taken before come twice. -/
theorem again (refusal : Refusal size pass s held bs taken passed e t held') {result : Except ChannelError Unit}
    (gathers : gather size pos pass t held' bs = ⟨result, u, held''⟩) {count n : Nat}
    (answer : (result.map fun _ => count) = .ok n) : ∃ passed',
      Takes size pass t held' bs passed' u held'' ∧
      passed.flatten ++ (passed'.flatten ++ held'') = held ++ taken ++ bs := by
  cases result with
  | error e => cases answer
  | ok done =>
    obtain ⟨_, before, _⟩ := refusal.refused
    obtain ⟨passed', takes⟩ := takes_of_gather (Nat.le_of_eq refusal.whole) gathers
    exact ⟨passed', takes, by rw [← takes.cut, ← List.append_assoc, before.cut]⟩

end Refusal

end

/-! ## Payload writers -/

/-- A number comes again only when all others were used in between. -/
theorem ChunkNonce.range_le_of_same {count used : Nat} (same : (count + used + 1) % range = count % range) :
    range ≤ used + 1 := by
  rw [range_eq] at *
  omega

section
variable {ω : Type} [Writer ω]

namespace ChunkOutput
variable {o o' : ChunkOutput ω} {count : Nat} {passed : List Bytes}

/-- A chunk moves the number on, passed on or not. -/
theorem nonce_pass (numbered : o.nonce = ⟨count % ChunkNonce.range, false⟩) {chunk : Bytes} (some : chunk ≠ []) :
    (o.pass chunk false).2.nonce = ⟨(count + 1) % ChunkNonce.range, false⟩ := by
  have encrypts : Chunk.nonceOf o.nonce chunk false = .ok ⟨count % ChunkNonce.range, false⟩ := by
    rw [numbered]
    exact Chunk.nonceOf_eq_ok fun empty => absurd empty some
  rw [(pass_of_nonceOf (.start : Writer.Reaches o.inner o.inner) encrypts).1, numbered]
  exact (ChunkNonce.after_ordered count).1

theorem nonce_of_passedOn (passes : PassedOn (fun o chunk => ChunkOutput.pass o chunk false) o passed o')
    (some : ∀ chunk ∈ passed, chunk ≠ []) (numbered : o.nonce = ⟨count % ChunkNonce.range, false⟩) :
    o'.nonce = ⟨(count + passed.length) % ChunkNonce.range, false⟩ := by
  induction passes generalizing count with
  | nil o => exact numbered
  | @cons o o' o'' chunk chunks step _ ih =>
    obtain ⟨first, others⟩ := List.forall_mem_cons.1 some
    have next := nonce_pass numbered first
    rw [step] at next
    rw [ih others next, List.length_cons, Nat.add_assoc, Nat.add_comm 1]

/-- Where a chunk is refused, the number has moved on for each chunk that was passed on and for that one. -/
theorem nonce_of_refusal {chunk bs taken chunk' : Bytes} {e : ChannelError}
    (refusal : Refusal Chunk.size (fun o chunk => ChunkOutput.pass o chunk false) o chunk bs taken passed e o' chunk')
    (numbered : o.nonce = ⟨count % ChunkNonce.range, false⟩) :
    o'.nonce = ⟨(count + passed.length + 1) % ChunkNonce.range, false⟩ := by
  have some : ∀ chunk : Bytes, chunk.length = Chunk.size → chunk ≠ [] :=
    fun chunk whole => List.ne_nil_of_length_pos (whole ▸ Chunk.size_pos)
  obtain ⟨o₁, takes, refuses⟩ := refusal.refused
  have before := nonce_of_passedOn takes.passes (fun chunk member => some chunk (takes.full_length chunk member)) numbered
  have behind := nonce_pass before (some _ refusal.whole)
  rwa [refuses] at behind

end ChunkOutput

namespace PayloadWriter

/-- A call on a payload writer gathers chunks, and is answered as that goes. -/
theorem write_iff {w w' : PayloadWriter ω} {bs : Bytes} {answer : Except ChannelError Nat} : w.write bs = (answer, w') ↔
    ∃ result, gather Chunk.size Chunk.size_pos (fun o chunk => o.pass chunk false) w.output w.chunk bs =
      ⟨result, w'.output, w'.chunk⟩ ∧ (result.map fun _ => bs.length) = answer := by
  constructor
  · rintro ⟨⟩
    exact ⟨_, rfl, rfl⟩
  · rintro ⟨result, gathers, rfl⟩
    rw [write, gathers]

/-- Whatever calls were made, the next chunk has a number and is not marked, and no more than a chunk is held. -/
theorem standing_of_reaches {cipher : Cipher} {inner : ω} {w : PayloadWriter ω}
    (reaches : Writer.Reaches (start cipher inner) w) :
    (∃ count, w.output.nonce = ⟨count % ChunkNonce.range, false⟩) ∧ w.chunk.length ≤ Chunk.size := by
  induction reaches with
  | start => exact ⟨⟨0, rfl⟩, Nat.zero_le _⟩
  | @write w _ bs ih =>
    obtain ⟨numbered, fits⟩ := ih
    -- The number moves on with each chunk, also with the one that is refused.
    have keeps := @gather_keeps _ Chunk.size Chunk.size_pos (fun o chunk => ChunkOutput.pass o chunk false)
      (fun o => ∃ count, o.nonce = ⟨count % ChunkNonce.range, false⟩) (fun _ _ => True)
      (fun o chunk ⟨count, numbered⟩ some => ⟨⟨count + 1, ChunkOutput.nonce_pass numbered some⟩, fun _ _ => trivial⟩)
      w.output numbered w.chunk bs
    exact ⟨keeps.1, length_held_gather_le fits⟩
  | @flush w _ ih => exact ih

/-- Of bytes that are more than a chunk, the first chunk is held when it is refused, and its number is used. -/
theorem write_of_refused (cipher : Cipher) {inner inner' : ω} {chunk rest : Bytes} {e : ChannelError}
    (whole : chunk.length = Chunk.size) (more : rest ≠ [])
    (refused : Writer.writeAll inner (cipher.encrypt (ChunkNonce.toBlock ⟨0, false⟩) chunk) = (.error e, inner')) :
    (start cipher inner).write (chunk ++ rest) = (.error e, ⟨⟨cipher, ⟨1, false⟩, inner'⟩, chunk⟩) := by
  have some : chunk ≠ [] := List.ne_nil_of_length_pos (whole ▸ Chunk.size_pos)
  have pass : ChunkOutput.pass ⟨cipher, .first, inner⟩ chunk false = (.error e, ⟨cipher, ⟨1, false⟩, inner'⟩) :=
    ChunkOutput.pass_of_encrypt (Chunk.encrypt_inner cipher some (by decide)) refused
  exact write_iff.2 ⟨.error e, gather_of_refused_first whole more pass, rfl⟩

end PayloadWriter

namespace ArmorWriter

/-- A call on an armor writer gathers lines, and is answered as that goes. -/
theorem write_iff {w w' : ArmorWriter ω} (armored : w.format = .armored) {bs : Bytes} {answer : Except ChannelError Nat} :
    w.write bs = (answer, w') ↔ w'.format = .armored ∧
      ∃ result, gather Armor.lineBytes Armor.lineBytes_pos passLine w.inner w.line bs = ⟨result, w'.inner, w'.line⟩ ∧
        (result.map fun _ => bs.length) = answer := by
  rw [write, armored]
  constructor
  · rintro ⟨⟩
    exact ⟨rfl, _, rfl, rfl⟩
  · rintro ⟨armored', result, gathers, rfl⟩
    dsimp only
    rw [gathers, ← armored']

/-- Whatever calls were made, no more than a line is held. -/
theorem standing_of_reaches {inner : ω} {w : ArmorWriter ω} (reaches : Writer.Reaches (start inner .armored).2 w) :
    w.format = .armored ∧ w.line.length ≤ Armor.lineBytes := by
  induction reaches with
  | start => exact ⟨rfl, Nat.zero_le _⟩
  | @write w _ bs ih =>
    obtain ⟨armored, fits⟩ := ih
    show (w.write bs).2.format = .armored ∧ (w.write bs).2.line.length ≤ Armor.lineBytes
    rw [write, armored]
    exact ⟨rfl, length_held_gather_le fits⟩
  | @flush w _ ih => exact ih

theorem encodeLine_ne_nil {line : Bytes} (whole : line.length = Armor.lineBytes) : Armor.encodeLine line ≠ [] :=
  List.ne_nil_of_length_pos (by rw [Armor.length_encodeLine, whole]; decide)

/-- Of bytes that are more than a line, the first line is held when it is refused. -/
theorem write_of_refused {inner inner' : ω} {line rest : Bytes} {e : ChannelError} (whole : line.length = Armor.lineBytes)
    (more : rest ≠ []) (refused : passLine inner line = (.error e, inner')) :
    write ⟨.armored, inner, []⟩ (line ++ rest) = (.error e, ⟨.armored, inner', line⟩) :=
  (write_iff rfl).2 ⟨rfl, .error e, gather_of_refused_first whole more refused, rfl⟩

end ArmorWriter

/-- A call fails exactly where a full chunk or line is refused. Then a byte of what was offered was taken, unless the chunk
    or line was full before and was refused at once, and the number of the next chunk has moved on, unless more was offered
    than a payload can hold. The bytes that were taken come twice if the same bytes are offered again and are taken. -/
theorem Writer.taken_of_failure (inner : ω) (bs : Bytes) (e : ChannelError) :
    (∀ cipher w, Reaches (PayloadWriter.start cipher inner) w → ∀ w', w.write bs = (.error e, w') ↔
      ∃ taken passed, Refusal Chunk.size (fun o chunk => o.pass chunk false) w.output w.chunk bs taken passed e
          w'.output w'.chunk ∧
        (taken = [] ↔ w.chunk.length = Chunk.size ∧ passed = []) ∧
        w'.output.nonce = ⟨(w.output.nonce.counter + passed.length + 1) % ChunkNonce.range, false⟩ ∧
        (w'.output.nonce = w.output.nonce → Chunk.size * (ChunkNonce.range - 1) < bs.length) ∧
        ∀ n w'', w'.write bs = (.ok n, w'') → ∃ passed',
          Takes Chunk.size (fun o chunk => o.pass chunk false) w'.output w'.chunk bs passed' w''.output w''.chunk ∧
          passed.flatten ++ (passed'.flatten ++ w''.chunk) = w.chunk ++ taken ++ bs) ∧
    (∀ w, Reaches (ArmorWriter.start inner .armored).2 w → ∀ w', w.write bs = (.error e, w') ↔
      w'.format = .armored ∧
      ∃ taken passed, Refusal Armor.lineBytes ArmorWriter.passLine w.inner w.line bs taken passed e w'.inner w'.line ∧
        (taken = [] ↔ w.line.length = Armor.lineBytes ∧ passed = []) ∧
        ∀ n w'', w'.write bs = (.ok n, w'') → ∃ passed',
          Takes Armor.lineBytes ArmorWriter.passLine w'.inner w'.line bs passed' w''.inner w''.line ∧
          passed.flatten ++ (passed'.flatten ++ w''.line) = w.line ++ taken ++ bs) := by
  constructor
  · intro cipher w reaches w'
    obtain ⟨⟨count, numbered⟩, fits⟩ := PayloadWriter.standing_of_reaches reaches
    constructor
    · intro fails
      obtain ⟨result, gathers, answer⟩ := PayloadWriter.write_iff.1 fails
      rw [error_of_map answer, gather_eq_error_iff fits] at gathers
      obtain ⟨taken, passed, refusal⟩ := gathers
      have moved := ChunkOutput.nonce_of_refusal refusal numbered
      refine ⟨taken, passed, refusal, refusal.taken_eq_nil_iff Chunk.size_pos fits, ?_, fun same => ?_, ?_⟩
      · rw [moved, numbered, Nat.add_assoc, Nat.add_assoc, Nat.mod_add_mod]
      · rw [moved, numbered] at same
        have all := ChunkNonce.range_le_of_same (ChunkNonce.mk.inj same).1
        have longer := refusal.length_lt
        exact Nat.lt_of_le_of_lt (Nat.mul_le_mul_left Chunk.size (Nat.sub_le_of_le_add all)) (by omega)
      · intro n w'' writes
        obtain ⟨result, gathers, answer⟩ := PayloadWriter.write_iff.1 writes
        exact refusal.again gathers answer
    · rintro ⟨taken, passed, refusal, _⟩
      exact PayloadWriter.write_iff.2 ⟨_, (gather_eq_error_iff fits).2 ⟨taken, passed, refusal⟩, rfl⟩
  · intro w reaches w'
    obtain ⟨armored, fits⟩ := ArmorWriter.standing_of_reaches reaches
    constructor
    · intro fails
      obtain ⟨armored', result, gathers, answer⟩ := (ArmorWriter.write_iff armored).1 fails
      rw [error_of_map answer, gather_eq_error_iff fits] at gathers
      obtain ⟨taken, passed, refusal⟩ := gathers
      refine ⟨armored', taken, passed, refusal, refusal.taken_eq_nil_iff Armor.lineBytes_pos fits, ?_⟩
      intro n w'' writes
      obtain ⟨_, result, gathers, answer⟩ := (ArmorWriter.write_iff armored').1 writes
      exact refusal.again gathers answer
    · rintro ⟨armored', taken, passed, refusal, _⟩
      exact (ArmorWriter.write_iff armored).2 ⟨armored', _, (gather_eq_error_iff fits).2 ⟨taken, passed, refusal⟩, rfl⟩

end

/-! ## Full sinks -/

/-- A sink with room for the mark of the beginning refuses all that comes behind. -/
theorem ArmorWriter.start_narrow :
    ∃ inner : Sink, start { Sink.unlimited with capacity? := some 35 } .armored = (.ok (), ⟨.armored, inner, []⟩) ∧
      ∀ bs, bs ≠ [] → Writer.writeAll inner bs = (.error Sink.full, inner) := by
  have room : Sink.room { Sink.unlimited with capacity? := some 35 } (Armor.beginMarker ++ Armor.newline) :=
    ⟨rfl, by rintro capacity ⟨⟩; decide⟩
  have records := Sink.records { Sink.unlimited with capacity? := some 35 }
  rcases Writer.writeEach_of_records records (Sink.recorded_refl _) [Armor.beginMarker, Armor.newline] with
    ⟨inner, step, recorded⟩ | ⟨_, _, _, full⟩
  · have starts := (start_of_writeEach step recorded).1
    obtain ⟨bytes, portion, capacity⟩ := recorded
    have size : inner.bytes.length = 35 := congrArg List.length bytes
    rw [Sink.bytes, Array.length_toList] at size
    exact ⟨inner, starts, fun bs some => Sink.writeAll_refused (by rw [capacity, size]) portion some⟩
  · exact absurd room full

namespace Writer

/-- One byte more than a chunk cannot be written into a sink that refuses everything, and one more than a line not into one that
    takes the mark of the beginning alone. What is held and the number of the next chunk are then not as before. -/
theorem not_kept_of_full :
    let refusing : Sink := { Sink.unlimited with capacity? := some 0 }
    let narrow : Sink := { Sink.unlimited with capacity? := some 35 }
    let w := PayloadWriter.start (Cipher.chaCha20Poly1305 (.zeros 32)) refusing
    let begun := ArmorWriter.start narrow .armored
    (∃ w', w.write (List.replicate (Chunk.size + 1) 0) = (.error Sink.full, w') ∧
      w.chunk = [] ∧ w'.chunk = List.replicate Chunk.size 0 ∧
      w.output.nonce = ⟨0, false⟩ ∧ w'.output.nonce = ⟨1, false⟩) ∧
    (begun.1 = .ok () ∧ ∃ w', begun.2.write (List.replicate (Armor.lineBytes + 1) 0) = (.error Sink.full, w') ∧
      begun.2.line = [] ∧ w'.line = List.replicate Armor.lineBytes 0) := by
  have more : [(0 : UInt8)] ≠ [] := List.cons_ne_nil _ _
  constructor
  · have refused := Sink.writeAll_refused (s := { Sink.unlimited with capacity? := some 0 }) rfl rfl
      ((Cipher.chaCha20Poly1305 (.zeros 32)).encrypt_ne_nil (ChunkNonce.toBlock ⟨0, false⟩) (List.replicate Chunk.size 0))
    have fails := PayloadWriter.write_of_refused _ List.length_replicate more refused
    rw [← List.replicate_succ'] at fails
    exact ⟨_, fails, rfl, rfl, rfl, rfl⟩
  · obtain ⟨inner, starts, full⟩ := ArmorWriter.start_narrow
    have refused : ArmorWriter.passLine inner (List.replicate Armor.lineBytes 0) = (.error Sink.full, inner) := by
      rw [ArmorWriter.passLine, writeEach, full _ (ArmorWriter.encodeLine_ne_nil List.length_replicate)]
    have fails := ArmorWriter.write_of_refused List.length_replicate more refused
    rw [← List.replicate_succ'] at fails
    dsimp only
    rw [starts]
    exact ⟨rfl, _, fails, rfl, rfl⟩

end Writer

/-- A sink that is told which of the next calls it refuses. -/
structure FaultySink where
  bytes : Bytes
  refusals : List Bool

namespace FaultySink
variable {bs : Bytes} {s : FaultySink}

instance : Writer FaultySink where
  write s bs :=
    if s.refusals.headD false then (.error Sink.full, ⟨s.bytes, s.refusals.tail⟩)
    else (.ok bs.length, ⟨s.bytes ++ bs, s.refusals.tail⟩)
  flush s := (.ok (), s)

theorem writeAll_refused (some : bs ≠ []) (refused : s.refusals.headD false = true) :
    Writer.writeAll s bs = (.error Sink.full, ⟨s.bytes, s.refusals.tail⟩) := by
  have step : Writer.write s bs = (.error Sink.full, ⟨s.bytes, s.refusals.tail⟩) := if_pos refused
  rw [Writer.writeAll, dif_neg some, step]

theorem writeAll_taken (some : bs ≠ []) (taken : s.refusals.headD false = false) :
    Writer.writeAll s bs = (.ok (), ⟨s.bytes ++ bs, s.refusals.tail⟩) := by
  have step : Writer.write s bs = (.ok bs.length, ⟨s.bytes ++ bs, s.refusals.tail⟩) :=
    if_neg (Bool.eq_false_iff.1 taken)
  obtain ⟨n, length⟩ := Nat.exists_eq_succ_of_ne_zero (Nat.ne_of_gt (List.length_pos_iff.2 some))
  rw [Writer.writeAll, dif_neg some, step, length]
  dsimp only
  rw [← Nat.succ_eq_add_one, ← length, List.drop_length, Writer.writeAll, dif_pos rfl]

theorem writeEach_taken {first second : Bytes} (some : first ≠ []) (some' : second ≠ [])
    (taken : s.refusals.headD false = false) (taken' : s.refusals.tail.headD false = false) :
    Writer.writeEach s [first, second] = (.ok (), ⟨s.bytes ++ first ++ second, s.refusals.tail.tail⟩) := by
  rw [Writer.writeEach, writeAll_taken some taken]
  dsimp only
  rw [Writer.writeEach, writeAll_taken some' taken']
  rfl

/-- A chunk that was refused and the one behind it are passed on when no call is refused any more. -/
theorem exists_payload_again (cipher : Cipher) (written : Bytes) {chunk rest : Bytes} (whole : chunk.length = Chunk.size)
    (more : rest ≠ []) (le : rest.length ≤ Chunk.size) : ∃ w',
      PayloadWriter.write ⟨⟨cipher, ⟨1, false⟩, FaultySink.mk written []⟩, chunk⟩ (chunk ++ rest) =
        (.ok (chunk ++ rest).length, w') := by
  have some : chunk ≠ [] := List.ne_nil_of_length_pos (whole ▸ Chunk.size_pos)
  have pass : ∀ counter, counter + 1 ≠ ChunkNonce.range → ∀ written, ∃ written',
      ChunkOutput.pass ⟨cipher, ⟨counter, false⟩, FaultySink.mk written []⟩ chunk false =
        (.ok (), ⟨cipher, ⟨counter + 1, false⟩, FaultySink.mk written' []⟩) :=
    fun counter next written => ⟨_, ChunkOutput.pass_of_encrypt (Chunk.encrypt_inner cipher some next)
      (writeAll_taken (cipher.encrypt_ne_nil _ chunk) rfl)⟩
  obtain ⟨_, first⟩ := pass 1 (by decide) written
  obtain ⟨_, second⟩ := pass 2 (by decide) _
  exact ⟨⟨_, rest⟩, PayloadWriter.write_iff.2 ⟨.ok (), gather_again whole more le first second, rfl⟩⟩

/-- A line that was refused and the one behind it are passed on when no call is refused any more. -/
theorem exists_armor_again (written : Bytes) {line rest : Bytes} (whole : line.length = Armor.lineBytes) (more : rest ≠ [])
    (le : rest.length ≤ Armor.lineBytes) : ∃ w',
      ArmorWriter.write ⟨.armored, FaultySink.mk written [], line⟩ (line ++ rest) = (.ok (line ++ rest).length, w') := by
  have pass : ∀ written, ∃ written',
      ArmorWriter.passLine (FaultySink.mk written []) line = (.ok (), FaultySink.mk written' []) :=
    fun written => ⟨_, writeEach_taken (ArmorWriter.encodeLine_ne_nil whole) (by decide) rfl rfl⟩
  obtain ⟨_, first⟩ := pass written
  obtain ⟨_, second⟩ := pass _
  exact ⟨⟨.armored, _, rest⟩,
    (ArmorWriter.write_iff rfl).2 ⟨rfl, .ok (), gather_again whole more le first second, rfl⟩⟩

end FaultySink

namespace Writer

/-- One byte more than a chunk, or than a line, is refused once. When it is offered again, all of it is taken besides what
    was taken before. -/
theorem taken_of_failure_once :
    let chunk : Bytes := List.replicate Chunk.size 0
    let line : Bytes := List.replicate Armor.lineBytes 0
    let w := PayloadWriter.start (Cipher.chaCha20Poly1305 (.zeros 32)) (FaultySink.mk [] [true])
    let begun := ArmorWriter.start (FaultySink.mk [] [false, false, true]) .armored
    (∃ w' w'' passed, w.write (chunk ++ [0]) = (.error Sink.full, w') ∧ w'.output.nonce = ⟨1, false⟩ ∧
      w'.write (chunk ++ [0]) = (.ok (chunk ++ [0]).length, w'') ∧
      Takes Chunk.size (fun o chunk => o.pass chunk false) w'.output w'.chunk (chunk ++ [0]) passed w''.output w''.chunk ∧
      passed.flatten ++ w''.chunk = chunk ++ (chunk ++ [0])) ∧
    (begun.1 = .ok () ∧ ∃ w' w'' passed, begun.2.write (line ++ [0]) = (.error Sink.full, w') ∧
      w'.write (line ++ [0]) = (.ok (line ++ [0]).length, w'') ∧
      Takes Armor.lineBytes ArmorWriter.passLine w'.inner w'.line (line ++ [0]) passed w''.inner w''.line ∧
      passed.flatten ++ w''.line = line ++ (line ++ [0])) := by
  intro chunk line w begun
  have more : [(0 : UInt8)] ≠ [] := List.cons_ne_nil _ _
  constructor
  · have whole : chunk.length = Chunk.size := List.length_replicate
    have some : chunk ≠ [] := List.ne_nil_of_length_pos (whole ▸ Chunk.size_pos)
    have few : (chunk ++ [0]).length ≤ Chunk.size + Chunk.size := by
      rw [List.length_append, whole]
      decide
    generalize chunk = chunk at whole some few
    have fails := PayloadWriter.write_of_refused w.output.cipher whole more
      (FaultySink.writeAll_refused (s := ⟨[], [true]⟩) (w.output.cipher.encrypt_ne_nil _ chunk) rfl)
    obtain ⟨w'', again⟩ := FaultySink.exists_payload_again w.output.cipher [] whole more Chunk.size_pos
    obtain ⟨taken, passed, refusal, _, nonce, _, retry⟩ :=
      ((taken_of_failure (FaultySink.mk [] [true]) (chunk ++ [0]) Sink.full).1 _ w .start _).1 fails
    obtain ⟨rfl, held⟩ := refusal.held_of_short (Nat.le_trans (Nat.le_of_eq (Nat.zero_add _)) few)
    obtain ⟨passed', takes, twice⟩ := retry _ _ again
    refine ⟨_, w'', passed', fails, nonce, again, takes, ?_⟩
    rwa [← held] at twice
  · have whole : line.length = Armor.lineBytes := List.length_replicate
    have few : (line ++ [0]).length ≤ Armor.lineBytes + Armor.lineBytes := by
      rw [List.length_append, whole]
      decide
    generalize line = line at whole few
    have begins : begun = (.ok (), ⟨.armored, ⟨Armor.beginMarker ++ Armor.newline, [true]⟩, []⟩) := by
      show ArmorWriter.start _ _ = _
      rw [ArmorWriter.start, FaultySink.writeEach_taken (by decide) (by decide) rfl rfl]
      rfl
    have refused : ArmorWriter.passLine (FaultySink.mk (Armor.beginMarker ++ Armor.newline) [true]) line =
        (.error Sink.full, ⟨Armor.beginMarker ++ Armor.newline, []⟩) := by
      rw [ArmorWriter.passLine, writeEach, FaultySink.writeAll_refused (ArmorWriter.encodeLine_ne_nil whole) rfl]
      rfl
    have fails := ArmorWriter.write_of_refused whole more refused
    obtain ⟨w'', again⟩ := FaultySink.exists_armor_again (Armor.beginMarker ++ Armor.newline) whole more (by decide)
    have failure := (taken_of_failure (FaultySink.mk [] [false, false, true]) (line ++ [0]) Sink.full).2 begun.2 .start
    rw [begins] at failure ⊢
    obtain ⟨_, taken, passed, refusal, _, retry⟩ := (failure _).1 fails
    obtain ⟨rfl, held⟩ := refusal.held_of_short (Nat.le_trans (Nat.le_of_eq (Nat.zero_add _)) few)
    obtain ⟨passed', takes, twice⟩ := retry _ _ again
    refine ⟨rfl, _, w'', passed', fails, again, takes, ?_⟩
    rwa [← held] at twice

end Writer

end AgeCrypt
