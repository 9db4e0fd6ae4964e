import AgeCrypt.Proofs.ArmorGrammar

/-!
# Reading on behind a failure

An armor reader does not keep in mind that it failed: the next call reads on behind what was rejected. So what calls for
any numbers of bytes give is determined by what each line gives for itself (`Armor.Course`), whether lines before it were
rejected or not (`ArmorReader.simulates_course`). Main statement: a reader fails for good once it rejected the armor
exactly if no line with bytes comes behind a line that is rejected and the mark of the end is missing then
(`ArmorReader.staysFailed_iff`).
-/

namespace AgeCrypt

open Buffered (takeLine)

namespace Reader
variable {ρ σ : Type} [Reader ρ] [Reader σ] {r : ρ} {s : σ}

/-- From here on, all calls for some bytes fail. -/
def Fails (r : ρ) : Prop := ∀ sizes n, n ≠ 0 → ∃ e, (read (readEach r sizes).2 n).1 = .error e

/-- Once a call has failed because the armor was rejected, all calls for some bytes fail. -/
def StaysFailed (r : ρ) : Prop :=
  ∀ sizes n e, (read (readEach r sizes).2 n).1 = .error (.armor e) → Fails (read (readEach r sizes).2 n).2

theorem Fails.read (fails : Fails r) (n : Nat) : Fails (read r n).2 := fun sizes => fails (n :: sizes)

theorem StaysFailed.read (stays : StaysFailed r) (n : Nat) : StaysFailed (read r n).2 := fun sizes => stays (n :: sizes)

/-- Related readers answer each call in the same way and stay related. -/
def Simulates (related : ρ → σ → Prop) : Prop :=
  ∀ ⦃r s⦄, related r s → ∀ n, (read r n).1 = (read s n).1 ∧ related (read r n).2 (read s n).2

variable {related : ρ → σ → Prop}

theorem readEach_of_simulates (simulates : Simulates related) (holds : related r s) (sizes : List Nat) :
    (readEach r sizes).1 = (readEach s sizes).1 ∧ related (readEach r sizes).2 (readEach s sizes).2 := by
  induction sizes generalizing r s with
  | nil => exact ⟨rfl, holds⟩
  | cons n sizes ih =>
    obtain ⟨same, holds⟩ := simulates holds n
    obtain ⟨others, left⟩ := ih holds
    have step : read r n = ((read r n).1, (read r n).2) := rfl
    have step' : read s n = ((read s n).1, (read s n).2) := rfl
    rw [readEach_cons step, readEach_cons step', same, others]
    exact ⟨rfl, left⟩

theorem fails_of_simulates (simulates : Simulates related) (holds : related r s) : Fails r ↔ Fails s := by
  have same : ∀ sizes n, (read (readEach r sizes).2 n).1 = (read (readEach s sizes).2 n).1 :=
    fun sizes n => (simulates (readEach_of_simulates simulates holds sizes).2 n).1
  unfold Fails
  simp only [same]

theorem staysFailed_of_simulates (simulates : Simulates related) (holds : related r s) :
    StaysFailed r ↔ StaysFailed s := by
  unfold StaysFailed
  refine forall_congr' fun sizes => forall_congr' fun n => forall_congr' fun e => ?_
  obtain ⟨same, left⟩ := simulates (readEach_of_simulates simulates holds sizes).2 n
  rw [same, fails_of_simulates simulates left]

end Reader

/-! ## The course of a file -/

namespace Armor

/-- What calls on an armored file come to: bytes that are ready, what each line gives that is still to be read, and how
    all calls behind the lines fail, if they do. -/
structure Course where
  ready : Bytes
  lines : List (Except ArmorError Bytes)
  ending? : Option ArmorError

namespace Course

/-- A call for `n` bytes when none are ready: lines without bytes are passed over. -/
def advance (ending? : Option ArmorError) (n : Nat) : List (Except ArmorError Bytes) → Except ChannelError Bytes × Course
  | [] => (ending?.elim (.ok []) fun e => .error (.armor e), ⟨[], [], ending?⟩)
  | .error e :: lines => (.error (.armor e), ⟨[], lines, ending?⟩)
  | .ok [] :: lines => advance ending? n lines
  | .ok (b :: bs) :: lines => (.ok ((b :: bs).take n), ⟨(b :: bs).drop n, lines, ending?⟩)

/-- A call goes on from where the one before it stopped, also if that failed. -/
def read (c : Course) (n : Nat) : Except ChannelError Bytes × Course :=
  if n = 0 then (.ok [], c)
  else if c.ready = [] then advance c.ending? n c.lines
  else (.ok (c.ready.take n), { c with ready := c.ready.drop n })

theorem read_zero (c : Course) : c.read 0 = (.ok [], c) := rfl

theorem read_of_empty {c : Course} {n : Nat} (asked : n ≠ 0) (empty : c.ready = []) :
    c.read n = advance c.ending? n c.lines := by
  rw [read, if_neg asked, if_pos empty]

theorem read_of_ready {c : Course} {n : Nat} (asked : n ≠ 0) (some : c.ready ≠ []) :
    c.read n = (.ok (c.ready.take n), { c with ready := c.ready.drop n }) := by
  rw [read, if_neg asked, if_neg some]

/-- A call is answered by the first line that gives bytes or is rejected, and if there is none, as the lines end. -/
theorem advance_cases (ending? : Option ArmorError) (n : Nat) (lines : List (Except ArmorError Bytes)) :
    (∃ before b bs behind, lines = before ++ .ok (b :: bs) :: behind ∧
      advance ending? n lines = (.ok ((b :: bs).take n), ⟨(b :: bs).drop n, behind, ending?⟩)) ∨
    (∃ before e behind, lines = before ++ .error e :: behind ∧
      advance ending? n lines = (.error (.armor e), ⟨[], behind, ending?⟩)) ∨
    advance ending? n lines = (ending?.elim (.ok []) fun e => .error (.armor e), ⟨[], [], ending?⟩) := by
  fun_induction advance ending? n lines with
  | case1 => exact .inr (.inr rfl)
  | case2 e lines => exact .inr (.inl ⟨[], e, lines, rfl, rfl⟩)
  | case3 lines ih =>
    rcases ih with ⟨before, b, bs, behind, rfl, step⟩ | ⟨before, e, behind, rfl, step⟩ | step
    · exact .inl ⟨.ok [] :: before, b, bs, behind, rfl, step⟩
    · exact .inr (.inl ⟨.ok [] :: before, e, behind, rfl, step⟩)
    · exact .inr (.inr step)
  | case4 b bs lines => exact .inl ⟨[], b, bs, lines, rfl, rfl⟩

/-- How many bytes some lines give. -/
def linesSize (lines : List (Except ArmorError Bytes)) : Nat := (lines.flatMap fun line => line.toOption.getD []).length

def size (c : Course) : Nat := c.ready.length + linesSize c.lines

theorem linesSize_append (before : List (Except ArmorError Bytes)) (line : Except ArmorError Bytes)
    (behind : List (Except ArmorError Bytes)) :
    (line.toOption.getD []).length + linesSize behind ≤ linesSize (before ++ line :: behind) := by
  simp only [linesSize, List.flatMap_append, List.flatMap_cons, List.length_append]
  omega

/-- A call takes what it hands out from what is left, and is not interrupted. -/
theorem read_bound (c : Course) (n : Nat) :
    match c.read n with
    | (.ok bs, c') => bs.length ≤ n ∧ c'.size + bs.length ≤ c.size
    | (.error e, c') => c'.size ≤ c.size ∧ e.isInterruption = false := by
  have taken : ∀ bs : Bytes, (bs.take n).length ≤ n ∧ (bs.drop n).length + (bs.take n).length = bs.length := by
    intro bs
    simp only [List.length_take, List.length_drop]
    omega
  by_cases asked : n = 0
  · rw [asked, read_zero]
    exact ⟨Nat.le_refl 0, Nat.le_refl _⟩
  by_cases empty : c.ready = []
  · rw [read_of_empty asked empty]
    rcases advance_cases c.ending? n c.lines with
      ⟨before, b, bs, behind, same, step⟩ | ⟨before, e, behind, same, step⟩ | step
    · have le := linesSize_append before (.ok (b :: bs)) behind
      have part := taken (b :: bs)
      rw [step]
      simp only [size, same, Except.toOption, Option.getD_some] at le ⊢
      exact ⟨part.1, by omega⟩
    · have le := linesSize_append before (.error e) behind
      rw [step]
      simp only [size, same, List.length_nil]
      exact ⟨by omega, rfl⟩
    · rw [step]
      cases c.ending? with
      | none => exact ⟨Nat.zero_le n, Nat.zero_le _⟩
      | some e => exact ⟨Nat.zero_le _, rfl⟩
  · have part := taken c.ready
    rw [read_of_ready asked empty]
    simp only [size]
    exact ⟨part.1, by omega⟩

instance : Reader Course where
  read := read
  remaining := size
  patience _ := 0
  read_ok := by
    intro c n bs c' step
    have bound := c.read_bound n
    rwa [step] at bound
  read_error := by
    intro c n e c' step
    have bound := c.read_bound n
    rw [step] at bound
    exact ⟨bound.1, fun interruption => by simp [bound.2] at interruption⟩

variable {lines behind : List (Except ArmorError Bytes)} {ending? : Option ArmorError}

/-- None of some lines gives bytes, and there is a failure behind all of them. -/
def Silent (lines : List (Except ArmorError Bytes)) (ending? : Option ArmorError) : Prop :=
  (∀ part, .ok part ∈ lines → part = []) ∧ ending? ≠ none

/-- Nothing but failures is left. -/
def IsExhausted (c : Course) : Prop := c.ready = [] ∧ Silent c.lines c.ending?

/-- Behind a line that is rejected, nothing but failures is left. -/
def FailsForGood (c : Course) : Prop :=
  ∀ before e behind, c.lines = before ++ .error e :: behind → Silent behind c.ending?

theorem silent_nil (ends : ending? ≠ none) : Silent [] ending? := ⟨fun _ member => absurd member List.not_mem_nil, ends⟩

theorem Silent.of_append {before : List (Except ArmorError Bytes)} (silent : Silent (before ++ behind) ending?) :
    Silent behind ending? :=
  ⟨fun part member => silent.1 part (List.mem_append_right before member), silent.2⟩

/-- Nothing that is exhausted is answered by bytes. -/
theorem IsExhausted.read {c : Course} (exhausted : c.IsExhausted) (n : Nat) :
    (c.read n).2.IsExhausted ∧ (n ≠ 0 → ∃ e, (c.read n).1 = .error e) := by
  obtain ⟨empty, silent⟩ := exhausted
  by_cases asked : n = 0
  · rw [asked]
    exact ⟨⟨empty, silent⟩, fun some => absurd rfl some⟩
  rw [read_of_empty asked empty]
  rcases advance_cases c.ending? n c.lines with ⟨before, b, bs, behind, same, step⟩ | ⟨before, e, behind, same, step⟩ | step
  · have none := silent.1 (b :: bs) (by simp [same])
    cases none
  · rw [same, List.append_cons] at silent
    rw [step]
    exact ⟨⟨rfl, silent.of_append⟩, fun _ => ⟨_, rfl⟩⟩
  · obtain ⟨e, failing⟩ := Option.ne_none_iff_exists'.1 silent.2
    rw [step]
    refine ⟨⟨rfl, silent_nil silent.2⟩, fun _ => ⟨.armor e, ?_⟩⟩
    rw [failing]
    rfl

theorem IsExhausted.fails {c : Course} (exhausted : c.IsExhausted) : Reader.Fails c := by
  intro sizes n asked
  induction sizes generalizing c with
  | nil => exact (exhausted.read n).2 asked
  | cons m sizes ih => exact ih (exhausted.read m).1

theorem FailsForGood.of_append {c : Course} (good : c.FailsForGood) {before : List (Except ArmorError Bytes)}
    (same : c.lines = before ++ lines) (ready : Bytes) : FailsForGood ⟨ready, lines, c.ending?⟩ := by
  rintro earlier e behind rfl
  rw [← List.append_assoc] at same
  exact good _ e behind same

/-- What is behind a call fails for good as well, and nothing but failures is left behind one that failed. -/
theorem FailsForGood.read {c : Course} (good : c.FailsForGood) (n : Nat) :
    (c.read n).2.FailsForGood ∧ ∀ e, (c.read n).1 = .error e → (c.read n).2.IsExhausted := by
  by_cases asked : n = 0
  · rw [asked]
    exact ⟨good, fun e failed => by cases failed⟩
  by_cases empty : c.ready = []
  · rw [read_of_empty asked empty]
    rcases advance_cases c.ending? n c.lines with
      ⟨before, b, bs, behind, same, step⟩ | ⟨before, e, behind, same, step⟩ | step
    · rw [List.append_cons] at same
      rw [step]
      exact ⟨good.of_append same _, fun e failed => by cases failed⟩
    · have silent := good before e behind same
      rw [List.append_cons] at same
      rw [step]
      exact ⟨good.of_append same [], fun _ _ => ⟨rfl, silent⟩⟩
    · rw [step]
      refine ⟨good.of_append (List.append_nil _).symm [], fun e failed => ?_⟩
      refine ⟨rfl, silent_nil fun clean => ?_⟩
      dsimp only at clean failed
      rw [clean] at failed
      cases failed
  · rw [read_of_ready asked empty]
    exact ⟨good, fun e failed => by cases failed⟩

theorem staysFailed_of_failsForGood {c : Course} (good : c.FailsForGood) : Reader.StaysFailed c := by
  intro sizes n e failed
  induction sizes generalizing c with
  | nil => exact ((good.read n).2 _ failed).fails
  | cons m sizes ih => exact ih (good.read m).1 failed

/-- A line without bytes makes no difference to calls. -/
inductive Skips : Course → Course → Prop
  | same (c : Course) : Skips c c
  | skip (lines : List (Except ArmorError Bytes)) (ending? : Option ArmorError) :
      Skips ⟨[], .ok [] :: lines, ending?⟩ ⟨[], lines, ending?⟩

theorem simulates_skips : Reader.Simulates Skips := by
  rintro c c' skips n
  cases skips with
  | same => exact ⟨rfl, .same _⟩
  | skip lines ending? =>
    by_cases asked : n = 0
    · rw [asked]
      exact ⟨rfl, .skip lines ending?⟩
    · have step : Reader.read (⟨[], .ok [] :: lines, ending?⟩ : Course) n =
          Reader.read (⟨[], lines, ending?⟩ : Course) n := by
        show read _ n = read _ n
        rw [read_of_empty asked rfl, read_of_empty asked rfl]
        rfl
      rw [step]
      exact ⟨rfl, .same _⟩

/-- When all calls fail, nothing but failures is left. -/
theorem silent_of_fails (fails : Reader.Fails (⟨[], lines, ending?⟩ : Course)) : Silent lines ending? := by
  induction lines with
  | nil =>
    refine silent_nil ?_
    rintro rfl
    obtain ⟨e, failed⟩ := fails [] 1 Nat.one_ne_zero
    cases failed
  | cons line lines ih =>
    cases line with
    | error e =>
      obtain ⟨silent, ends⟩ := ih (fails.read 1)
      exact ⟨fun part member => silent part (List.mem_of_ne_of_mem (by simp) member), ends⟩
    | ok part =>
      cases part with
      | nil =>
        obtain ⟨silent, ends⟩ := ih ((Reader.fails_of_simulates simulates_skips (.skip lines ending?)).1 fails)
        refine ⟨fun part member => ?_, ends⟩
        rcases List.mem_cons.1 member with same | member
        · cases same
          rfl
        · exact silent part member
      | cons b bs =>
        obtain ⟨e, failed⟩ := fails [] 1 Nat.one_ne_zero
        cases failed

theorem failsForGood_of_staysFailed (stays : Reader.StaysFailed (⟨[], lines, ending?⟩ : Course)) :
    FailsForGood ⟨[], lines, ending?⟩ := by
  induction lines with
  | nil =>
    intro before e behind same
    simp at same
  | cons line lines ih =>
    have later : ∀ before e behind, lines = before ++ .error e :: behind → Silent behind ending? := by
      cases line with
      | error e =>
        rintro before e' behind rfl
        have silent := silent_of_fails (stays [] 1 e rfl)
        rw [List.append_cons] at silent
        exact silent.of_append
      | ok part =>
        cases part with
        | nil => exact ih ((Reader.staysFailed_of_simulates simulates_skips (.skip lines ending?)).1 stays)
        | cons b bs =>
          have served := stays.read (b :: bs).length
          have left : (Reader.read (⟨[], .ok (b :: bs) :: lines, ending?⟩ : Course) (b :: bs).length).2 =
              ⟨[], lines, ending?⟩ := by
            show (⟨(b :: bs).drop (b :: bs).length, lines, ending?⟩ : Course) = _
            rw [List.drop_length]
          rw [left] at served
          exact ih served
    intro before e behind same
    cases before with
    | nil =>
      cases same
      exact silent_of_fails (stays [] 1 e rfl)
    | cons first before =>
      cases same
      exact later before e behind rfl

/-- Whether a course fails for good is what its lines say. -/
theorem staysFailed_iff_failsForGood :
    Reader.StaysFailed (⟨[], lines, ending?⟩ : Course) ↔ FailsForGood ⟨[], lines, ending?⟩ :=
  ⟨failsForGood_of_staysFailed, staysFailed_of_failsForGood⟩

end Course

/-- What is wrong behind the end. -/
def trailingFault? (rest : Bytes) : Option ArmorError :=
  if !isWhitespace (rest.take (maxWhitespace + 1)) then some .trailingData
  else if maxWhitespace < rest.length then some .trailingWhitespace
  else none

/-- There is something in a line, unless the bytes are at their end. -/
theorem length_drop_firstLine {bs : Bytes} (some : bs ≠ []) :
    (bs.drop (Buffered.firstLine (.some ArmorReader.lineLimit) bs).length).length < bs.length := by
  have line : (Buffered.firstLine (.some ArmorReader.lineLimit) bs).length ≠ 0 := by
    intro none
    have cut : bs.take ArmorReader.lineLimit = [] := Buffered.throughNewline_eq_nil (List.length_eq_zero_iff.1 none)
    exact (List.take_eq_nil_iff.1 cut).elim (by decide) some
  have all : bs.length ≠ 0 := fun none => some (List.length_eq_zero_iff.1 none)
  rw [List.length_drop]
  omega

/-- What each line behind the beginning gives, and how calls behind all lines fail, if they do. A line that is rejected
    leaves open whether there was a short one, and behind the end there is nothing, even if that is rejected. -/
def linesFrom (short : Bool) (bs : Bytes) : List (Except ArmorError Bytes) × Option ArmorError :=
  if _none : bs = [] then ([], some .missingEnd)
  else
    let line := Buffered.firstLine (some ArmorReader.lineLimit) bs
    let rest := bs.drop line.length
    match readLine short line with
    | .error e => (.error e :: (linesFrom short rest).1, (linesFrom short rest).2)
    | .ok .ending => ((trailingFault? rest).toList.map .error, none)
    | .ok (.data part) =>
      (.ok part :: (linesFrom (short || part.length < lineBytes) rest).1,
        (linesFrom (short || part.length < lineBytes) rest).2)
termination_by bs.length
decreasing_by all_goals exact length_drop_firstLine _none

/-- Reads on from a line before or at the beginning: what is wrong there, and what is behind the last line that was read. -/
def openBeginning (line rest : Bytes) (whitespace : Nat) : Option ArmorError × Bytes :=
  if _blank : line ≠ [] ∧ isWhitespace line then
    if maxWhitespace < whitespace + line.length then (some .leadingWhitespace, rest)
    else
      let next := Buffered.firstLine (some ArmorReader.openingLimit) rest
      openBeginning next (rest.drop next.length) (whitespace + line.length)
  else if stripEnding line = beginMarker then (none, rest)
  else (some .beginMarker, rest)
termination_by maxWhitespace - whitespace
decreasing_by
  have : line.length ≠ 0 := fun e => _blank.1 (List.length_eq_zero_iff.1 e)
  omega

/-- What is wrong at the beginning of an armored file, and what is behind the beginning. -/
def opening (bs : Bytes) : Option ArmorError × Bytes := openBeginning (firstLine bs) (bs.drop (firstLine bs).length) 0

/-- What calls on an armored file come to from its beginning on. -/
def course (bs : Bytes) : Course :=
  ⟨[], (opening bs).1.toList.map .error ++ (linesFrom false (opening bs).2).1, (linesFrom false (opening bs).2).2⟩

section
variable {short : Bool} {bs line rest : Bytes}

theorem trailing?_eq_map (rest : Bytes) : trailing? none rest = (trailingFault? rest).map .armor := by
  unfold trailing? trailingFault? fault?
  by_cases few : rest.length < maxWhitespace + 1
  · rw [if_pos few, Option.none_or, List.take_of_length_le (Nat.le_of_lt few)]
    split
    · rfl
    split <;> rfl
  · have long : (rest.take (maxWhitespace + 1)).length = maxWhitespace + 1 := List.length_take_of_le (Nat.le_of_not_lt few)
    have many : maxWhitespace < rest.length := Nat.le_of_not_lt few
    rw [if_neg few, long, if_pos (Nat.lt_succ_self maxWhitespace), if_pos many]
    split <;> rfl

theorem linesFrom_nil (short : Bool) : linesFrom short [] = ([], some .missingEnd) := by
  rw [linesFrom, dif_pos rfl]

variable (taken : takeLine none (some ArmorReader.lineLimit) bs = .ok (line, rest))
include taken

theorem linesFrom_of_error (some : bs ≠ []) {e : ArmorError} (rejected : readLine short line = .error e) :
    linesFrom short bs = (.error e :: (linesFrom short rest).1, (linesFrom short rest).2) := by
  cases taken
  rw [linesFrom, dif_neg some]
  dsimp only
  rw [rejected]

/-- Without a line there is nothing to accept. -/
theorem ne_nil_of_readLine {content : Content} (accepts : readLine short line = .ok content) : bs ≠ [] := by
  rintro rfl
  cases taken
  cases accepts

theorem linesFrom_of_ending (ends : readLine short line = .ok .ending) :
    linesFrom short bs = ((trailingFault? rest).toList.map .error, none) := by
  have some := ne_nil_of_readLine taken ends
  cases taken
  rw [linesFrom, dif_neg some]
  dsimp only
  rw [ends]

theorem linesFrom_of_data {part : Bytes} (holds : readLine short line = .ok (.data part)) :
    linesFrom short bs = (.ok part :: (linesFrom (short || part.length < lineBytes) rest).1,
      (linesFrom (short || part.length < lineBytes) rest).2) := by
  have some := ne_nil_of_readLine taken holds
  cases taken
  rw [linesFrom, dif_neg some]
  dsimp only
  rw [holds]

end

end Armor

/-! ## The reader -/

namespace ArmorReader
variable {ρ : Type} [Reader ρ] {r inner : Buffered ρ} {bs rest : Bytes}

/-- A reader is where a course says: at the beginning of an armored file, among its lines, or behind its end. -/
inductive Follows : ArmorReader ρ → Armor.Course → Prop
  | unknown {inner : Buffered ρ} {bs : Bytes} (armored : Armor.IsArmored bs) (holds : inner.Holds none bs) :
      Follows ⟨inner, .unknown⟩ (Armor.course bs)
  | running {inner : Buffered ρ} {rest : Bytes} (decoded : Bytes) (short : Bool) (holds : inner.Holds none rest) :
      Follows ⟨inner, .armored decoded short false⟩ ⟨decoded, (Armor.linesFrom short rest).1, (Armor.linesFrom short rest).2⟩
  | ended (inner : Buffered ρ) (decoded : Bytes) (short : Bool) :
      Follows ⟨inner, .armored decoded short true⟩ ⟨decoded, [], none⟩

/-- The beginning is read as it is opened, and what is behind it is left in any case. -/
theorem readBeginning_eq_open (holds : r.Holds none rest) (line : Bytes) (whitespace : Nat) :
    ∃ r', readBeginning r line whitespace =
        ((Armor.openBeginning line rest whitespace).1.elim (.ok ()) fun e => .error (.armor e), r') ∧
      r'.Holds none (Armor.openBeginning line rest whitespace).2 := by
  fun_induction readBeginning r line whitespace generalizing rest with
  | case1 r line whitespace blank long =>
    rw [Armor.openBeginning, dif_pos blank, if_pos long]
    exact ⟨r, rfl, holds⟩
  | case2 r line whitespace blank few e r' step =>
    have fails := Buffered.takeLine_of_readLine_error holds step
    cases fails
  | case3 r line whitespace blank few line' r' step ih =>
    obtain ⟨rest', takes, left⟩ := Buffered.takeLine_of_readLine_ok holds step
    cases takes
    rw [Armor.openBeginning, dif_pos blank, if_neg few]
    exact ih left
  | case4 r line whitespace more begins =>
    rw [Armor.openBeginning, dif_neg more, if_pos begins]
    exact ⟨r, rfl, holds⟩
  | case5 r line whitespace more other =>
    rw [Armor.openBeginning, dif_neg more, if_neg other]
    exact ⟨r, rfl, holds⟩

/-- Behind the first line of an armored file, a reader is among the lines, also if the beginning was rejected. -/
theorem detect_of_armored (armored : Armor.IsArmored bs) (holds : inner.Holds none bs) :
    ∃ r', detect ⟨inner, .unknown⟩ =
        ((Armor.opening bs).1.elim (.ok ()) fun e => .error (.armor e), ⟨r', .armored [] false false⟩) ∧
      r'.Holds none (Armor.opening bs).2 := by
  obtain ⟨r, reads, left⟩ := @Buffered.readLine_of_takeLine _ _ none _ _ (some openingLimit) holds _ _ rfl
  have opens : Armor.opensArmor (Buffered.firstLine (some openingLimit) bs) = true := Armor.opensArmor_firstLine.2 armored
  obtain ⟨r', begins, left⟩ := readBeginning_eq_open left (Buffered.firstLine (some openingLimit) bs) 0
  unfold detect
  rw [reads]
  dsimp only
  rw [if_pos opens, begins]
  exact ⟨r', rfl, left⟩

/-- Lines are decoded as they come in the course, up to the first one that gives bytes or is rejected. -/
theorem readDecoded_of_lines (holds : r.Holds none rest) (short : Bool) :
    (∃ b bs short' rest' r', readDecoded r short = (.ok (), ⟨r', .armored (b :: bs) short' false⟩) ∧
      r'.Holds none rest' ∧ ∀ n, Armor.Course.advance (Armor.linesFrom short rest).2 n (Armor.linesFrom short rest).1 =
        (.ok ((b :: bs).take n),
          ⟨(b :: bs).drop n, (Armor.linesFrom short' rest').1, (Armor.linesFrom short' rest').2⟩)) ∨
    (∃ short' r', readDecoded r short = (.ok (), ⟨r', .armored [] short' true⟩) ∧
      ∀ n, Armor.Course.advance (Armor.linesFrom short rest).2 n (Armor.linesFrom short rest).1 = (.ok [], ⟨[], [], none⟩)) ∨
    (∃ e r' c, readDecoded r short = (.error (.armor e), r') ∧ Follows r' c ∧
      ∀ n, Armor.Course.advance (Armor.linesFrom short rest).2 n (Armor.linesFrom short rest).1 =
        (.error (.armor e), c)) := by
  fun_induction readDecoded r short generalizing rest with
  | case1 r short e r' step =>
    have fails := Buffered.takeLine_of_readLine_error holds step
    cases fails
  | case2 r short raw r' step e rejected =>
    obtain ⟨rest', takes, left⟩ := Buffered.takeLine_of_readLine_ok holds step
    refine .inr (.inr ⟨e, _, _, rfl, .running [] short left, fun n => ?_⟩)
    by_cases none : rest = []
    · subst none
      obtain ⟨rfl, rfl⟩ := List.append_eq_nil_iff.1 (Buffered.append_of_takeLine takes)
      cases rejected
      rw [Armor.linesFrom_nil]
      rfl
    · rw [Armor.linesFrom_of_error takes none rejected]
      rfl
  | case3 r short raw r' step ends result r'' trailing =>
    obtain ⟨rest', takes, left⟩ := Buffered.takeLine_of_readLine_ok holds step
    obtain ⟨r₂, same⟩ := readTrailing_of_holds left
    rw [trailing, Armor.trailing?_eq_map] at same
    cases same
    rw [Armor.linesFrom_of_ending takes ends]
    cases Armor.trailingFault? rest' with
    | none => exact .inr (.inl ⟨short, r'', rfl, fun n => rfl⟩)
    | some e => exact .inr (.inr ⟨e, _, _, rfl, .ended r'' [] short, fun n => rfl⟩)
  | case4 r short raw r' step content ih =>
    obtain ⟨rest', takes, left⟩ := Buffered.takeLine_of_readLine_ok holds step
    have isShort : (short || decide (([] : Bytes).length < Armor.lineBytes)) = true := by simp [Armor.lineBytes]
    rw [Armor.linesFrom_of_data takes content, isShort]
    exact ih left
  | case5 r short raw r' step b bs content =>
    obtain ⟨rest', takes, left⟩ := Buffered.takeLine_of_readLine_ok holds step
    rw [Armor.linesFrom_of_data takes content]
    exact .inl ⟨b, bs, _, rest', r', rfl, left, fun n => rfl⟩

/-- Among the lines, a call goes on with the next one. -/
theorem readKnown_of_lines (holds : inner.Holds none rest) (short : Bool) (n : Nat) :
    (readKnown ⟨inner, .armored [] short false⟩ n).1 =
        (Armor.Course.advance (Armor.linesFrom short rest).2 n (Armor.linesFrom short rest).1).1 ∧
      Follows (readKnown ⟨inner, .armored [] short false⟩ n).2
        (Armor.Course.advance (Armor.linesFrom short rest).2 n (Armor.linesFrom short rest).1).2 := by
  unfold readKnown
  dsimp only
  rcases readDecoded_of_lines holds short with
    ⟨b, bs, short', rest', r', step, left, next⟩ | ⟨short', r', step, next⟩ | ⟨e, r', c, step, follows, next⟩
  · rw [step, next]
    exact ⟨rfl, .running _ short' left⟩
  · rw [step, next]
    have served : serve n (.armored [] short' true) = ([], .armored [] short' true) := by simp [serve]
    dsimp only
    rw [served]
    exact ⟨rfl, .ended r' [] short'⟩
  · rw [step, next]
    exact ⟨rfl, follows⟩

/-- Every call on an armored file is answered as its course says, and the reader follows the course behind the call. -/
theorem simulates_course : Reader.Simulates (@Follows ρ _) := by
  rintro r c follows n
  show (read r n).1 = (c.read n).1 ∧ Follows (read r n).2 (c.read n).2
  by_cases asked : n = 0
  · rw [asked]
    exact ⟨rfl, follows⟩
  cases follows with
  | @unknown inner bs armored holds =>
    obtain ⟨r', detects, left⟩ := detect_of_armored armored holds
    rw [read, if_neg asked, Armor.Course.read_of_empty asked rfl, Armor.course]
    dsimp only
    rw [detects]
    cases (Armor.opening bs).1 with
    | none => exact readKnown_of_lines left false n
    | some e => exact ⟨rfl, .running [] false left⟩
  | @running inner rest decoded short holds =>
    rw [read, if_neg asked]
    dsimp only
    cases decoded with
    | nil =>
      rw [Armor.Course.read_of_empty asked rfl]
      exact readKnown_of_lines holds short n
    | cons b decoded =>
      rw [Armor.Course.read_of_ready asked (List.cons_ne_nil b decoded)]
      exact ⟨rfl, .running _ short holds⟩
  | ended inner decoded short =>
    rw [read, if_neg asked]
    dsimp only
    cases decoded with
    | nil =>
      have step : readKnown ⟨inner, .armored [] short true⟩ n = (.ok [], ⟨inner, .armored [] short true⟩) := by
        simp [readKnown, serve]
      rw [step, Armor.Course.read_of_empty asked rfl]
      exact ⟨rfl, .ended inner [] short⟩
    | cons b decoded =>
      rw [Armor.Course.read_of_ready asked (List.cons_ne_nil b decoded)]
      exact ⟨rfl, .ended inner _ short⟩

/-- Reading on behind a failure. Whatever calls are made on an armored file, they are answered as its lines say one after
    the other, also if they go on behind a failure. So once the armor is rejected, all calls for some bytes fail exactly if
    this is so of the lines: behind one that is rejected no line gives bytes, and the mark of the end is missing. -/
theorem staysFailed_iff {inner : ρ} (delivers : Reader.Delivers none inner bs) (armored : Armor.IsArmored bs) :
    (∀ sizes, (Reader.readEach (ofReader inner) sizes).1 = (Reader.readEach (Armor.course bs) sizes).1) ∧
    (Reader.StaysFailed (ofReader inner) ↔ (Armor.course bs).FailsForGood) := by
  have follows : Follows (ofReader inner) (Armor.course bs) := .unknown armored (Buffered.holds_ofReader delivers)
  constructor
  · intro sizes
    exact (Reader.readEach_of_simulates simulates_course follows sizes).1
  · rw [Reader.staysFailed_of_simulates simulates_course follows]
    exact Armor.Course.staysFailed_iff_failsForGood

/-- Behind a short line there may be no other, and the mark of the end is missing, so that reading stays failed. -/
theorem staysFailed_iff_short :
    let file := utf8 "-----BEGIN AGE ENCRYPTED FILE-----\naGk\naGk\n"
    (Reader.readEach (ofReader (Source.ofBytes file)) [8, 8, 8, 8]).1 =
        [.ok [104, 105], .error (.armor .endMarker), .error (.armor .missingEnd), .error (.armor .missingEnd)] ∧
      Reader.StaysFailed (ofReader (Source.ofBytes file)) := by
  intro file
  have opens : Armor.opening file = (none, utf8 "aGk\naGk\n") := by
    rw [Armor.opening, Armor.openBeginning, dif_neg (by decide), if_pos (by decide)]
    decide
  have data : Armor.readLine false (utf8 "aGk\n") = .ok (.data [104, 105]) :=
    Armor.readLine_eq_data_iff.2 ⟨by decide, rfl, 0, by decide, by decide +kernel, by decide⟩
  have rejected : Armor.readLine true (utf8 "aGk\n") = .error .endMarker := rfl
  have lines : Armor.linesFrom false (utf8 "aGk\naGk\n") = ([.ok [104, 105], .error .endMarker], some .missingEnd) := by
    rw [Armor.linesFrom_of_data (rfl : takeLine _ _ _ = .ok (utf8 "aGk\n", utf8 "aGk\n")) data,
      show (false || decide (([104, 105] : Bytes).length < Armor.lineBytes)) = true from rfl,
      Armor.linesFrom_of_error (rfl : takeLine _ _ _ = .ok (utf8 "aGk\n", [])) (by decide) rejected,
      Armor.linesFrom_nil]
  have course : Armor.course file = ⟨[], [.ok [104, 105], .error .endMarker], some .missingEnd⟩ := by
    rw [Armor.course, opens, lines]
    rfl
  obtain ⟨answers, stays⟩ := staysFailed_iff (Source.delivers_ofBytes file) (by decide)
  rw [course] at answers stays
  refine ⟨answers [8, 8, 8, 8], stays.2 ?_⟩
  intro before e behind same
  rcases before with _ | ⟨first, _ | ⟨second, before⟩⟩
  · cases same
  · cases same
    exact Armor.Course.silent_nil (Option.some_ne_none _)
  · simp at same

/-- Behind a mark of the beginning that is rejected, the lines are decoded and the end is reached, as if nothing were
    wrong. -/
theorem not_staysFailed_of_beginning :
    let file := utf8 "-----BEGIN AGE ENCRYPTED FILE-----x\naGk\n-----END AGE ENCRYPTED FILE-----\n"
    Armor.IsArmored file ∧
      (Reader.readEach (ofReader (Source.ofBytes file)) [8, 8, 8]).1 =
        [.error (.armor .beginMarker), .ok [104, 105], .ok []] ∧
      ¬ Reader.StaysFailed (ofReader (Source.ofBytes file)) := by
  intro file
  have opens : Armor.opening file = (some .beginMarker, utf8 "aGk\n-----END AGE ENCRYPTED FILE-----\n") := by
    rw [Armor.opening, Armor.openBeginning, dif_neg (by decide), if_neg (by decide)]
    decide
  have data : Armor.readLine false (utf8 "aGk\n") = .ok (.data [104, 105]) :=
    Armor.readLine_eq_data_iff.2 ⟨by decide, rfl, 0, by decide, by decide +kernel, by decide⟩
  have ends : ∀ short, Armor.readLine short (utf8 "-----END AGE ENCRYPTED FILE-----\n") = .ok .ending :=
    fun short => Armor.readLine_eq_ending_iff.2 (by decide)
  have lines : Armor.linesFrom false (utf8 "aGk\n-----END AGE ENCRYPTED FILE-----\n") = ([.ok [104, 105]], none) := by
    rw [Armor.linesFrom_of_data (rfl : takeLine _ _ _ = .ok (utf8 "aGk\n", utf8 "-----END AGE ENCRYPTED FILE-----\n")) data,
      Armor.linesFrom_of_ending (rfl : takeLine _ _ _ = .ok (utf8 "-----END AGE ENCRYPTED FILE-----\n", [])) (ends _)]
    rfl
  have course : Armor.course file = ⟨[], [.error .beginMarker, .ok [104, 105]], none⟩ := by
    rw [Armor.course, opens, lines]
    rfl
  have armored : Armor.IsArmored file := by decide
  have follows : Follows (ofReader (Source.ofBytes file)) (Armor.course file) :=
    .unknown armored (Buffered.holds_ofReader (Source.delivers_ofBytes file))
  rw [course] at follows
  refine ⟨armored, (Reader.readEach_of_simulates simulates_course follows [8, 8, 8]).1, ?_⟩
  rw [Reader.staysFailed_of_simulates simulates_course follows, Armor.Course.staysFailed_iff_failsForGood]
  intro good
  exact (good [] .beginMarker [.ok [104, 105]] rfl).2 rfl

end ArmorReader

end AgeCrypt
