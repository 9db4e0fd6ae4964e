import AgeCrypt.Armor.Reader
import AgeCrypt.Proofs.Lines

/-!
# What an armored file holds

The bytes that a file holds once its armor is removed, and how it ends, without any reader (`Armor.unarmor`): a file
that does not begin as an armored one holds itself, and the lines of one that does are decoded until one is rejected or
the end is there. An armor reader delivers just that (`ArmorReader.delivers`).
-/

namespace AgeCrypt

open Buffered (takeLine)

namespace Armor

/-- What is left behind the beginning of an armored file, of which a line and some whitespace were read. -/
def skipBeginning (stop? : Option ChannelError) (line rest : Bytes) (whitespace : Nat) : Except ChannelError Bytes :=
  if _blank : line ≠ [] ∧ isWhitespace line then
    if maxWhitespace < whitespace + line.length then .error (.armor .leadingWhitespace)
    else
      match takeLine stop? (some ArmorReader.openingLimit) rest with
      | .error e => .error e
      | .ok (line', rest') => skipBeginning stop? line' rest' (whitespace + line.length)
  else if stripEnding line = beginMarker then .ok rest
  else .error (.armor .beginMarker)
termination_by maxWhitespace - whitespace
decreasing_by
  have : line.length ≠ 0 := fun e => _blank.1 (List.length_eq_zero_iff.1 e)
  omega

/-- What is wrong with the bytes behind the end of an armored file. -/
def fault? (bs : Bytes) : Option ChannelError :=
  if !isWhitespace bs then some (.armor .trailingData)
  else if maxWhitespace < bs.length then some (.armor .trailingWhitespace)
  else none

/-- How an armored file ends with its end marker: more bytes than may come behind it are asked for. -/
def trailing? (stop? : Option ChannelError) (rest : Bytes) : Option ChannelError :=
  if rest.length < maxWhitespace + 1 then stop?.or (fault? rest) else fault? (rest.take (maxWhitespace + 1))

/-- The bytes of the lines behind the beginning, and how they end. -/
def decodeFrom (stop? : Option ChannelError) (short : Bool) (bs : Bytes) : Bytes × Option ChannelError :=
  match _taken : takeLine stop? (some ArmorReader.lineLimit) bs with
  | .error e => ([], some e)
  | .ok (raw, rest) =>
    match _content : readLine short raw with
    | .error e => ([], some (.armor e))
    | .ok .ending => ([], trailing? stop? rest)
    | .ok (.data part) =>
      let (parts, ending?) := decodeFrom stop? (short || part.length < lineBytes) rest
      (part ++ parts, ending?)
termination_by bs.length
decreasing_by
  have cut := congrArg List.length (Buffered.append_of_takeLine _taken)
  have some : raw.length ≠ 0 := by
    intro none
    rw [List.length_eq_zero_iff.1 none] at _content
    simp [readLine] at _content
  rw [List.length_append] at cut
  omega

/-- The bytes that a file holds, which may be armored, and how it ends. -/
def unarmor (stop? : Option ChannelError) (bs : Bytes) : Bytes × Option ChannelError :=
  match takeLine stop? (some ArmorReader.openingLimit) bs with
  | .error e => ([], some e)
  | .ok (line, rest) =>
    if opensArmor line then
      match skipBeginning stop? line rest 0 with
      | .error e => ([], some e)
      | .ok rest' => decodeFrom stop? false rest'
    else (bs, stop?)

section
variable {stop? : Option ChannelError} {short : Bool} {bs raw rest : Bytes}

theorem decodeFrom_of_failure {e : ChannelError} (fails : takeLine stop? (some ArmorReader.lineLimit) bs = .error e) :
    decodeFrom stop? short bs = ([], some e) := by
  rw [decodeFrom]
  split <;> simp_all

variable (taken : takeLine stop? (some ArmorReader.lineLimit) bs = .ok (raw, rest))
include taken

theorem decodeFrom_of_error {e : ArmorError} (rejected : readLine short raw = .error e) :
    decodeFrom stop? short bs = ([], some (.armor e)) := by
  rw [decodeFrom]
  split
  · simp_all
  · rename_i same
    rw [taken] at same
    cases same
    split <;> simp_all

theorem decodeFrom_of_ending (ends : readLine short raw = .ok .ending) :
    decodeFrom stop? short bs = ([], trailing? stop? rest) := by
  rw [decodeFrom]
  split
  · simp_all
  · rename_i same
    rw [taken] at same
    cases same
    split <;> simp_all

theorem decodeFrom_of_data {part : Bytes} (holds : readLine short raw = .ok (.data part)) :
    decodeFrom stop? short bs =
      (part ++ (decodeFrom stop? (short || part.length < lineBytes) rest).1,
        (decodeFrom stop? (short || part.length < lineBytes) rest).2) := by
  rw [decodeFrom]
  split
  · simp_all
  · rename_i same
    rw [taken] at same
    cases same
    split <;> simp_all

end

end Armor

namespace ArmorReader
variable {ρ : Type} [Reader ρ] {stop? : Option ChannelError} {r : Buffered ρ} {rest : Bytes}

theorem readBeginning_of_holds (holds : r.Holds stop? rest) (line : Bytes) (whitespace : Nat) :
    (∃ rest' r', Armor.skipBeginning stop? line rest whitespace = .ok rest' ∧
      readBeginning r line whitespace = (.ok (), r') ∧ r'.Holds stop? rest') ∨
    (∃ e r', Armor.skipBeginning stop? line rest whitespace = .error e ∧
      readBeginning r line whitespace = (.error e, r')) := by
  fun_induction readBeginning r line whitespace generalizing rest with
  | case1 r line whitespace blank long =>
    refine .inr ⟨_, r, ?_, rfl⟩
    rw [Armor.skipBeginning, dif_pos blank, if_pos long]
  | case2 r line whitespace blank few e r' step =>
    rw [Armor.skipBeginning, dif_pos blank, if_neg few, Buffered.takeLine_of_readLine_error holds step]
    exact .inr ⟨e, r', rfl, rfl⟩
  | case3 r line whitespace blank few line' r' step ih =>
    obtain ⟨rest', takes, left⟩ := Buffered.takeLine_of_readLine_ok holds step
    rw [Armor.skipBeginning, dif_pos blank, if_neg few, takes]
    exact ih left
  | case4 r line whitespace more begins =>
    refine .inl ⟨rest, r, ?_, rfl, holds⟩
    rw [Armor.skipBeginning, dif_neg more, if_pos begins]
  | case5 r line whitespace more other =>
    refine .inr ⟨_, r, ?_, rfl⟩
    rw [Armor.skipBeginning, dif_neg more, if_neg other]

theorem readTrailing_of_fetched {bs : Bytes} {r' : Buffered ρ}
    (fetched : Reader.fetch r (Armor.maxWhitespace + 1) = ⟨bs, none, r'⟩) :
    readTrailing r = ((Armor.fault? bs).elim (.ok ()) .error, r') := by
  unfold readTrailing Armor.fault?
  rw [fetched]
  dsimp only
  split
  · rfl
  split <;> rfl

theorem readTrailing_of_holds (holds : r.Holds stop? rest) :
    ∃ r', readTrailing r = ((Armor.trailing? stop? rest).elim (.ok ()) .error, r') := by
  have delivers := Buffered.delivers_of_holds holds
  unfold Armor.trailing?
  rcases Reader.fetch_of_delivers delivers (Armor.maxWhitespace + 1) with
    ⟨r', fetched, _, enough⟩ | ⟨e, r', fetched, short, stops⟩
  · refine ⟨r', ?_⟩
    rw [readTrailing_of_fetched fetched]
    by_cases short : rest.length < Armor.maxWhitespace + 1
    · have clean : stop? = none := enough.resolve_left (Nat.not_le.2 short)
      rw [if_pos short, clean, Option.none_or, List.take_of_length_le (Nat.le_of_lt short)]
    · rw [if_neg short]
  · refine ⟨r', ?_⟩
    rw [if_pos short, stops, readTrailing, fetched]
    rfl

/-- The next lines are decoded until one gives bytes or the file ends. -/
theorem readDecoded_of_holds (holds : r.Holds stop? rest) (short : Bool) :
    (∃ b bs short' rest' r', readDecoded r short = (.ok (), ⟨r', .armored (b :: bs) short' false⟩) ∧
      r'.Holds stop? rest' ∧ Armor.decodeFrom stop? short rest =
        (b :: bs ++ (Armor.decodeFrom stop? short' rest').1, (Armor.decodeFrom stop? short' rest').2)) ∨
    (∃ short' r', readDecoded r short = (.ok (), ⟨r', .armored [] short' true⟩) ∧
      Armor.decodeFrom stop? short rest = ([], none)) ∨
    (∃ e r', readDecoded r short = (.error e, r') ∧ Armor.decodeFrom stop? short rest = ([], some e)) := by
  fun_induction readDecoded r short generalizing rest with
  | case1 r short e r' step =>
    exact .inr (.inr ⟨e, _, rfl, Armor.decodeFrom_of_failure (Buffered.takeLine_of_readLine_error holds step)⟩)
  | case2 r short raw r' step e rejected =>
    obtain ⟨rest', takes, _⟩ := Buffered.takeLine_of_readLine_ok holds step
    exact .inr (.inr ⟨_, _, rfl, Armor.decodeFrom_of_error takes rejected⟩)
  | case3 r short raw r' step ends result r'' trailing =>
    obtain ⟨rest', takes, left⟩ := Buffered.takeLine_of_readLine_ok holds step
    obtain ⟨r₂, same⟩ := readTrailing_of_holds left
    rw [trailing] at same
    rw [Armor.decodeFrom_of_ending takes ends]
    cases same
    cases Armor.trailing? stop? rest' with
    | none => exact .inr (.inl ⟨short, r'', rfl, rfl⟩)
    | some e => exact .inr (.inr ⟨e, _, rfl, rfl⟩)
  | case4 r short raw r' step content ih =>
    obtain ⟨rest', takes, left⟩ := Buffered.takeLine_of_readLine_ok holds step
    have decoded := Armor.decodeFrom_of_data takes content
    have isShort : (short || decide (([] : Bytes).length < Armor.lineBytes)) = true := by simp [Armor.lineBytes]
    rw [isShort] at decoded
    rw [decoded]
    exact ih left
  | case5 r short raw r' step b bs content =>
    obtain ⟨rest', takes, left⟩ := Buffered.takeLine_of_readLine_ok holds step
    exact .inl ⟨b, bs, _, rest', r', rfl, left, Armor.decodeFrom_of_data takes content⟩

/-- The reader still hands out `rest`, and ends with the failure `ending?` or without one, while the failure `stop?`
    comes behind the file. -/
inductive Expects (stop? : Option ChannelError) : ArmorReader ρ → Bytes → Option ChannelError → Prop
  | unknown {inner : Buffered ρ} {bs : Bytes} (holds : inner.Holds stop? bs) :
      Expects stop? ⟨inner, .unknown⟩ (Armor.unarmor stop? bs).1 (Armor.unarmor stop? bs).2
  | binary {inner : Buffered ρ} {rest : Bytes} (ahead : Bytes) (holds : inner.Holds stop? rest) :
      Expects stop? ⟨inner, .binary ahead⟩ (ahead ++ rest) stop?
  | armored {inner : Buffered ρ} {rest : Bytes} (decoded : Bytes) (short : Bool) (holds : inner.Holds stop? rest) :
      Expects stop? ⟨inner, .armored decoded short false⟩
        (decoded ++ (Armor.decodeFrom stop? short rest).1) (Armor.decodeFrom stop? short rest).2
  | ended (inner : Buffered ρ) (decoded : Bytes) (short : Bool) :
      Expects stop? ⟨inner, .armored decoded short true⟩ decoded none

/-- Whether it is known that a file is armored. -/
def IsKnown (r : ArmorReader ρ) : Prop := r.state ≠ .unknown

theorem detect_of_holds {inner : Buffered ρ} {bs : Bytes} (holds : inner.Holds stop? bs) :
    (∃ r', detect ⟨inner, .unknown⟩ = (.ok (), r') ∧ r'.IsKnown ∧
      Expects stop? r' (Armor.unarmor stop? bs).1 (Armor.unarmor stop? bs).2) ∨
    (∃ e r', detect ⟨inner, .unknown⟩ = (.error e, r') ∧ Armor.unarmor stop? bs = ([], some e)) := by
  unfold detect Armor.unarmor
  rcases Buffered.readLine_eq_takeLine (some openingLimit) holds with ⟨line, rest, r₁, takes, reads, left⟩ | ⟨e, r₁, takes, reads⟩
  · rw [reads, takes]
    dsimp only
    by_cases opens : Armor.opensArmor line = true
    · rw [if_pos opens, if_pos opens]
      rcases readBeginning_of_holds left line 0 with ⟨rest', r₂, skips, begins, left⟩ | ⟨e, r₂, skips, begins⟩
      · rw [skips, begins]
        exact .inl ⟨_, rfl, fun unknown => (by cases unknown), .armored [] false left⟩
      · rw [skips, begins]
        exact .inr ⟨e, _, rfl, rfl⟩
    · rw [if_neg opens, if_neg opens]
      refine .inl ⟨_, rfl, fun unknown => (by cases unknown), ?_⟩
      rw [← Buffered.append_of_takeLine takes]
      exact .binary line left
  · rw [reads, takes]
    exact .inr ⟨e, _, rfl, rfl⟩

theorem readKnown_of_binary {inner : Buffered ρ} (holds : inner.Holds stop? rest) (n : Nat) :
    Reader.Answers (fun r rest => Expects stop? r rest stop?) stop? n rest (readKnown ⟨inner, .binary []⟩ n) := by
  have answers := Buffered.read_of_holds holds n
  unfold readKnown
  dsimp only
  cases step : Reader.read inner n with | mk result inner' => ?_
  rw [step] at answers
  cases result with
  | ok bs =>
    obtain ⟨rest', rfl, left, ended⟩ := answers
    exact ⟨rest', rfl, .binary [] left, ended⟩
  | error e =>
    rcases answers with ⟨interrupted, left⟩ | failed
    · exact .inl ⟨interrupted, .binary [] left⟩
    · exact .inr failed

theorem readKnown_of_armored {inner : Buffered ρ} (holds : inner.Holds stop? rest) (short : Bool) (n : Nat) :
    Reader.Answers (fun r left => Expects stop? r left (Armor.decodeFrom stop? short rest).2)
      (Armor.decodeFrom stop? short rest).2 n (Armor.decodeFrom stop? short rest).1
      (readKnown ⟨inner, .armored [] short false⟩ n) := by
  unfold readKnown
  dsimp only
  rcases readDecoded_of_holds holds short with
    ⟨b, bs, short', rest', r', step, left, decoded⟩ | ⟨short', r', step, decoded⟩ | ⟨e, r', step, decoded⟩
  · rw [step, decoded]
    exact Reader.answers_take (List.cons_ne_nil b bs) (.armored _ short' left)
  · have served : serve n (.armored [] short' true) = ([], .armored [] short' true) := by simp [serve]
    rw [step, decoded]
    dsimp only
    rw [served]
    exact ⟨[], rfl, .ended r' [] short', fun _ _ => ⟨rfl, rfl⟩⟩
  · rw [step, decoded]
    exact .inr ⟨(bound_readDecoded step).2 e rfl, rfl, rfl⟩

/-- A call on a file that is known to be armored or not. -/
theorem readKnown_of_expects {r : ArmorReader ρ} {ending? : Option ChannelError} {n : Nat} (asked : n ≠ 0)
    (known : r.IsKnown) (expects : Expects stop? r rest ending?) :
    Reader.Answers (fun r rest => Expects stop? r rest ending?) ending? n rest (r.readKnown n) := by
  cases expects with
  | unknown => exact absurd rfl known
  | @binary inner rest ahead holds =>
    cases ahead with
    | nil => exact readKnown_of_binary holds n
    | cons b ahead => exact Reader.answers_take (List.cons_ne_nil b ahead) (.binary _ holds)
  | @armored inner rest decoded short holds =>
    cases decoded with
    | nil => exact readKnown_of_armored holds short n
    | cons b decoded => exact Reader.answers_take (List.cons_ne_nil b decoded) (.armored _ short holds)
  | ended inner decoded short =>
    have step : readKnown ⟨inner, .armored rest short true⟩ n =
        (.ok (rest.take n), ⟨inner, .armored (rest.drop n) short true⟩) := by
      cases rest <;> rfl
    rw [step]
    refine ⟨rest.drop n, (List.take_append_drop n rest).symm, .ended inner _ short, ?_⟩
    intro none _
    exact ⟨(List.take_eq_nil_iff.1 none).resolve_left asked, rfl⟩

theorem read_of_expects {r : ArmorReader ρ} {ending? : Option ChannelError} (expects : Expects stop? r rest ending?)
    (n : Nat) : Reader.Answers (fun r rest => Expects stop? r rest ending?) ending? n rest (r.read n) := by
  unfold read
  by_cases asked : n = 0
  · rw [if_pos asked]
    exact ⟨rest, rfl, expects, fun _ some => absurd asked some⟩
  rw [if_neg asked]
  by_cases known : r.IsKnown
  · have answers := readKnown_of_expects asked known expects
    split
    · rename_i unknown
      exact absurd unknown known
    · exact answers
  · cases expects with
    | unknown holds =>
      dsimp only
      rcases detect_of_holds holds with ⟨r', step, known, expects⟩ | ⟨e, r', step, unarmored⟩
      · rw [step]
        exact readKnown_of_expects asked known expects
      · rw [step, unarmored]
        exact .inr ⟨(bound_detect step).2 e rfl, rfl, rfl⟩
    | binary => exact absurd (fun unknown => by cases unknown) known
    | armored => exact absurd (fun unknown => by cases unknown) known
    | ended => exact absurd (fun unknown => by cases unknown) known

/-- An armor reader delivers what the file holds once its armor is removed. -/
theorem delivers {inner : ρ} {bs : Bytes} (delivers : Reader.Delivers stop? inner bs) :
    Reader.Delivers (Armor.unarmor stop? bs).2 (ofReader inner) (Armor.unarmor stop? bs).1 :=
  ⟨fun r rest => Expects stop? r rest (Armor.unarmor stop? bs).2, fun _ _ n expects => read_of_expects expects n,
    .unknown (Buffered.holds_ofReader delivers)⟩

end ArmorReader

end AgeCrypt
