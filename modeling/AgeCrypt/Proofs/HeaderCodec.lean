import AgeCrypt.Proofs.HeaderBytes
import AgeCrypt.Proofs.Recording

/-!
# Headers and their one spelling

Reading and writing a header are inverse to each other, byte by byte (`Header.read_eq_ok_iff_written`): an input is read
as a header exactly if it begins with what writing that header gives, and the reading stops behind it. The headers that
can be read are those whose tags and arguments are visible ASCII texts, which is a condition on the bytes of these
texts (`isArbitraryString_iff_bytes`).
-/

namespace AgeCrypt

/-- The texts that a header may hold are the non-empty ones all of whose bytes are visible. -/
theorem isArbitraryString_iff_bytes {s : String} :
    isArbitraryString s = true ↔ s ≠ "" ∧ ∀ b ∈ utf8 s, 33 ≤ b.toNat ∧ b.toNat ≤ 126 := by
  constructor
  · intro arbitrary
    refine ⟨ne_empty_of_isArbitraryString arbitrary, fun b member => ?_⟩
    rw [utf8_of_printable (isPrintable_of_isArbitraryString arbitrary)] at member
    obtain ⟨c, inside, rfl⟩ := List.mem_map.1 member
    simp only [isArbitraryString, Bool.and_eq_true, List.all_eq_true, decide_eq_true_eq] at arbitrary
    obtain ⟨low, high⟩ := arbitrary.2 c inside
    rw [UInt8.toNat_ofNat', Nat.mod_eq_of_lt (by omega)]
    exact ⟨low, high⟩
  · rintro ⟨some, visible⟩
    have ascii := ascii_of_utf8 fun b member => Nat.le_trans (visible b member).2 (by decide)
    rw [utf8_of_ascii ascii] at visible
    simp only [isArbitraryString, Bool.and_eq_true, List.all_eq_true, decide_eq_true_eq]
    refine ⟨fun none => some (String.toList_eq_nil_iff.1 none), fun c inside => ?_⟩
    have small := ascii c inside
    have byte := visible _ (List.mem_map.2 ⟨c, inside, rfl⟩)
    rwa [UInt8.toNat_ofNat', Nat.mod_eq_of_lt (by omega)] at byte

/-- What comes behind a reader is what draining it gives. -/
theorem Buffered.drain_of_holds {ρ : Type} [Reader ρ] {stop? : Option ChannelError} {r : Buffered ρ} {rest : Bytes}
    (holds : r.Holds stop? rest) : (Reader.drain r).bytes = rest := by
  obtain ⟨r', drains⟩ := Reader.drain_of_delivers (Buffered.delivers_of_holds holds)
  rw [drains]

namespace Header

/-- Writing a header into an empty sink that takes everything. -/
theorem write_unlimited (h : Header) :
    ∃ sink, h.write Sink.unlimited = (.ok (), sink) ∧ sink.bytes = h.toBytes := by
  rcases write_of_records Sink.unlimited.records (Sink.recorded_refl Sink.unlimited) h with
    ⟨sink, writes, written, _⟩ | ⟨_, _, _, full⟩
  · exact ⟨sink, writes, written⟩
  · exact absurd (Sink.room_unlimited #[] _) full

theorem isWritable_iff_bytes {h : Header} : h.isWritable = true ↔
    ∀ s ∈ h.recipients, ∀ token ∈ s.tag :: s.args, token ≠ "" ∧ ∀ b ∈ utf8 token, 33 ≤ b.toNat ∧ b.toNat ≤ 126 := by
  have tokens : ∀ s : Stanza, s.isWritable = (s.tag :: s.args).all isArbitraryString := fun _ => rfl
  simp only [isWritable, List.all_eq_true, tokens, isArbitraryString_iff_bytes]

/-- An input is read as a header, with `rest` left behind it, exactly if the tokens of the header are visible texts
    and the input is what writing the header gives, followed by `rest`. -/
theorem read_eq_ok_iff_written {ρ : Type} [Reader ρ] {stop? : Option ChannelError} {r : Buffered ρ} {bs : Bytes}
    (holds : r.Holds stop? bs) (h : Header) (rest : Bytes) :
    (∃ r', read r = (.ok h, r') ∧ (Reader.drain r').bytes = rest) ↔
      (∀ s ∈ h.recipients, ∀ token ∈ s.tag :: s.args, token ≠ "" ∧ ∀ b ∈ utf8 token, 33 ≤ b.toNat ∧ b.toNat ≤ 126) ∧
      ∃ sink, h.write Sink.unlimited = (.ok (), sink) ∧ bs = sink.bytes ++ rest := by
  obtain ⟨sink, writes, written⟩ := write_unlimited h
  rw [← isWritable_iff_bytes]
  constructor
  · rintro ⟨r', reads, rfl⟩
    obtain ⟨writable, rest, same, left⟩ := read_of_holds holds reads
    rw [Buffered.drain_of_holds left]
    exact ⟨writable, sink, writes, by rw [same, written]⟩
  · rintro ⟨writable, sink', writes', rfl⟩
    rw [writes] at writes'
    cases writes'
    rw [written] at holds
    obtain ⟨r', reads, left⟩ := read_toBytes writable holds
    exact ⟨r', reads, Buffered.drain_of_holds left⟩

/-- A stanza with a full line as its body, which an empty line has to end, from a source that hands out one byte at
    a time. -/
theorem read_eq_ok_iff_written_full_line :
    let stanza : Stanza := ⟨"a", ["b!", "~"], List.replicate 48 0⟩
    let h : Header := ⟨[stanza], .zeros 32⟩
    let input : Source := { Source.ofBytes (h.toBytes ++ [0]) with portion? := some 1 }
    ∃ r', read (Buffered.ofReader input) = (.ok h, r') ∧ (Reader.drain r').bytes = [0] := by
  intro stanza h input
  obtain ⟨sink, writes, written⟩ := write_unlimited h
  have holds := Buffered.holds_ofReader (Source.delivers input (by decide))
  refine (read_eq_ok_iff_written holds h [0]).2 ⟨?_, sink, writes, ?_⟩
  · exact isWritable_iff_bytes.1 (by decide)
  · rw [written]
    rfl

end Header

end AgeCrypt
