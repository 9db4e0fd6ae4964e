import AgeCrypt.Channel.Buffered
import AgeCrypt.Proofs.Delivery

/-!
# Lines that a buffered reader delivers

A buffered reader hands out its buffer and then what the reader behind it delivers (`Buffered.delivers_of_holds`).
The line that it reads is the first one of these bytes, cut off at the limit (`Buffered.readLine_of_holds`).
-/

namespace AgeCrypt

namespace Buffered

theorem throughNewline_append {before : Bytes} (after : Bytes) (inside : newline ∉ before) :
    throughNewline (before ++ after) = before ++ throughNewline after := by
  have all : ∀ b ∈ before, (b != newline) = true := by
    intro b member
    exact bne_iff_ne.2 (fun same => inside (same ▸ member))
  rw [throughNewline, List.takeWhile_append_of_pos all, List.dropWhile_append_of_pos all, List.append_assoc]
  rfl

theorem throughNewline_of_not_mem {bs : Bytes} (inside : newline ∉ bs) : throughNewline bs = bs := by
  have := throughNewline_append [] inside
  rwa [List.append_nil, show throughNewline [] = [] from rfl, List.append_nil] at this

theorem throughNewline_of_line {line : Bytes} (after : Bytes) (inside : newline ∉ line) :
    throughNewline (line ++ newline :: after) = line ++ [newline] := by
  rw [throughNewline_append _ inside]
  rfl

/-- The first line of a byte string ends with the first newline, or there is no newline. -/
theorem throughNewline_cases (bs : Bytes) :
    (newline ∉ bs ∧ throughNewline bs = bs) ∨
    (∃ line after, bs = line ++ newline :: after ∧ newline ∉ line ∧ throughNewline bs = line ++ [newline]) := by
  by_cases inside : newline ∈ bs
  · obtain ⟨line, after, rfl, first⟩ := List.eq_append_cons_of_mem inside
    exact .inr ⟨line, after, rfl, first, throughNewline_of_line after first⟩
  · exact .inl ⟨inside, throughNewline_of_not_mem inside⟩

theorem throughNewline_eq_nil {bs : Bytes} (none : throughNewline bs = []) : bs = [] := by
  rcases throughNewline_cases bs with ⟨_, same⟩ | ⟨line, after, _, _, same⟩
  · rw [← same, none]
  · simp [same] at none

/-- A byte string up to a limit, if there is one. -/
def capped (limit? : Option Nat) (bs : Bytes) : Bytes := limit?.elim bs bs.take

/-- The first line of a byte string, with its newline, cut off at the limit. -/
def firstLine (limit? : Option Nat) (bs : Bytes) : Bytes := throughNewline (capped limit? bs)

theorem isPrefix_capped (limit? : Option Nat) (bs : Bytes) : capped limit? bs <+: bs := by
  cases limit? with
  | none => exact List.prefix_refl bs
  | some limit => exact List.take_prefix limit bs

theorem capped_append (limit? : Option Nat) (before after : Bytes) :
    capped limit? (before ++ after) = capped limit? before ++ capped (limit?.map (· - before.length)) after := by
  cases limit? with
  | none => rfl
  | some limit => exact List.take_append

theorem capped_capped (limit? : Option Nat) (bs : Bytes) : capped limit? (capped limit? bs) = capped limit? bs := by
  cases limit? with
  | none => rfl
  | some limit => exact List.take_take.trans (by rw [Nat.min_self]; rfl)

theorem isPrefix_firstLine (limit? : Option Nat) (bs : Bytes) : firstLine limit? bs <+: bs :=
  (isPrefix_throughNewline _).trans (isPrefix_capped limit? bs)

/-- A newline in a part of the bytes ends the first line. -/
theorem firstLine_of_newline {limit? : Option Nat} {part : Bytes} (after : Bytes)
    (ends : (firstLine limit? part).getLast? = some newline) :
    firstLine limit? (part ++ after) = firstLine limit? part := by
  unfold firstLine at *
  rw [capped_append]
  rcases throughNewline_cases (capped limit? part) with ⟨inside, same⟩ | ⟨line, more, cut, inside, same⟩
  · rw [same] at ends
    exact absurd (List.mem_of_getLast? ends) inside
  · rw [same, cut, List.append_assoc, List.cons_append]
    exact throughNewline_of_line _ inside

/-- Without a newline in a part of the bytes, the first line goes on behind it. -/
theorem firstLine_of_not_newline {limit? : Option Nat} {part : Bytes} (after : Bytes)
    (open' : (firstLine limit? part).getLast? ≠ some newline) :
    newline ∉ firstLine limit? part ∧ firstLine limit? (part ++ after) = firstLine limit? part ++
      firstLine (limit?.map (· - (firstLine limit? part).length))
        ((part ++ after).drop (firstLine limit? part).length) := by
  unfold firstLine at *
  rcases throughNewline_cases (capped limit? part) with ⟨inside, same⟩ | ⟨line, more, cut, inside, same⟩
  · have cut := List.prefix_iff_eq_append.1 ((isPrefix_capped limit? part).trans (List.prefix_append part after))
    rw [same]
    refine ⟨inside, ?_⟩
    conv => lhs; rw [← cut, capped_append, capped_capped]
    exact throughNewline_append _ inside
  · rw [same] at open'
    simp at open'

/-- A first line that goes on behind the bytes. -/
def IsOpen (limit? : Option Nat) (bs : Bytes) : Prop := newline ∉ bs ∧ ∀ limit, limit? = some limit → bs.length < limit

instance (limit? : Option Nat) (bs : Bytes) : Decidable (IsOpen limit? bs) :=
  decidable_of_iff (newline ∉ bs ∧ limit?.all (bs.length < ·) = true) (by cases limit? <;> simp [IsOpen])

theorem isOpen_append {limit? : Option Nat} {part : Bytes} (inside : newline ∉ part) (after : Bytes) :
    IsOpen limit? (part ++ after) ↔ IsOpen (limit?.map (· - part.length)) after := by
  have lines : newline ∉ part ++ after ↔ newline ∉ after := by
    rw [List.mem_append]
    exact ⟨fun none member => none (.inr member), fun none member => member.elim inside none⟩
  unfold IsOpen
  rw [lines, List.length_append]
  cases limit? with
  | none => simp
  | some limit =>
    simp only [Option.map_some, Option.some.injEq, forall_eq']
    exact and_congr_right fun _ => by omega

/-- The first line and what is behind it, or the failure behind the bytes if the line goes on there. -/
def takeLine (stop? : Option ChannelError) (limit? : Option Nat) (bs : Bytes) : Except ChannelError (Bytes × Bytes) :=
  match stop?, decide (IsOpen limit? bs) with
  | some e, true => .error e
  | _, _ => .ok (firstLine limit? bs, bs.drop (firstLine limit? bs).length)

theorem takeLine_of_isOpen (e : ChannelError) {limit? : Option Nat} {bs : Bytes} (isOpen : IsOpen limit? bs) :
    takeLine (some e) limit? bs = .error e := by
  simp [takeLine, isOpen]

theorem takeLine_of_not_isOpen {stop? : Option ChannelError} {limit? : Option Nat} {bs : Bytes}
    (closed : stop? = none ∨ ¬ IsOpen limit? bs) :
    takeLine stop? limit? bs = .ok (firstLine limit? bs, bs.drop (firstLine limit? bs).length) := by
  rcases closed with rfl | closed
  · rfl
  · cases stop? <;> simp [takeLine, closed]

theorem append_of_takeLine {stop? : Option ChannelError} {limit? : Option Nat} {bs line rest : Bytes}
    (takes : takeLine stop? limit? bs = .ok (line, rest)) : line ++ rest = bs := by
  unfold takeLine at takes
  split at takes
  · cases takes
  · cases takes
    exact List.prefix_iff_eq_append.1 (isPrefix_firstLine limit? bs)

/-- A line that is taken ends with its only newline, or it is cut off, by the limit or by the end of the bytes. -/
theorem cases_of_takeLine {stop? : Option ChannelError} {limit : Nat} {bs line rest : Bytes}
    (takes : takeLine stop? (some limit) bs = .ok (line, rest)) :
    (∃ inside, line = inside ++ [newline] ∧ newline ∉ inside) ∨
    (newline ∉ line ∧ (rest = [] ∨ line.length = limit)) := by
  unfold takeLine at takes
  split at takes
  · cases takes
  · cases takes
    unfold firstLine
    rcases throughNewline_cases (capped (some limit) bs) with ⟨inside, same⟩ | ⟨line, after, _, inside, same⟩
    · rw [same]
      refine .inr ⟨inside, ?_⟩
      show bs.drop (bs.take limit).length = [] ∨ (bs.take limit).length = limit
      rw [List.length_take, List.drop_eq_nil_iff]
      omega
    · exact .inl ⟨line, same, inside⟩

/-- A whole line is taken, whatever comes behind it. -/
theorem takeLine_of_line (stop? : Option ChannelError) {limit? : Option Nat} {line : Bytes} (inside : newline ∉ line)
    (fits : ∀ limit, limit? = some limit → line.length < limit) (rest : Bytes) :
    takeLine stop? limit? (line ++ newline :: rest) = .ok (line ++ [newline], rest) := by
  have first : firstLine limit? (line ++ newline :: rest) = line ++ [newline] := by
    rw [firstLine, capped_append]
    cases limit? with
    | none => exact throughNewline_of_line rest inside
    | some limit =>
      have room : limit - line.length ≠ 0 := Nat.sub_ne_zero_of_lt (fits limit rfl)
      obtain ⟨n, more⟩ := Nat.exists_eq_succ_of_ne_zero room
      have whole : capped (some limit) line = line := List.take_of_length_le (Nat.le_of_lt (fits limit rfl))
      rw [whole, Option.map_some, more]
      exact throughNewline_of_line (rest.take n) inside
  have closed : ¬ IsOpen limit? (line ++ newline :: rest) := fun isOpen => isOpen.1 (by simp)
  have left : (line ++ newline :: rest).drop (line ++ [newline]).length = rest := by simp
  rw [takeLine_of_not_isOpen (.inr closed), first, left]

variable {ρ : Type} [Reader ρ] {stop? : Option ChannelError} {r r' : Buffered ρ} {rest : Bytes}

/-- The buffer and what the reader behind it delivers are `rest` together. -/
def Holds (stop? : Option ChannelError) (r : Buffered ρ) (rest : Bytes) : Prop :=
  ∃ tail, Reader.Delivers stop? r.inner tail ∧ rest = r.buffer ++ tail

theorem holds_ofReader {inner : ρ} (delivers : Reader.Delivers stop? inner rest) :
    (ofReader inner).Holds stop? rest :=
  ⟨rest, delivers, rfl⟩

theorem read_of_holds (holds : r.Holds stop? rest) (n : Nat) :
    Reader.Answers (Holds stop?) stop? n rest (Reader.read r n) := by
  obtain ⟨tail, delivers, rfl⟩ := holds
  show Reader.Answers _ _ _ _ (r.read n)
  unfold read
  by_cases empty : r.buffer = []
  · rw [if_neg (not_not_intro empty), empty, List.nil_append]
    have answers := Reader.delivers_read delivers (max n capacity)
    revert answers
    cases Reader.read r.inner (max n capacity) with
    | mk result inner =>
      cases result with
      | ok bs =>
        rintro ⟨tail', rfl, holds, ended⟩
        refine ⟨bs.drop n ++ tail', by rw [← List.append_assoc, List.take_append_drop], ⟨tail', holds, rfl⟩, ?_⟩
        intro none asked
        exact ended ((List.take_eq_nil_iff.1 none).resolve_left asked) (by omega)
      | error e => exact Or.imp_left fun ⟨interrupted, holds⟩ => ⟨interrupted, _, holds, rfl⟩
  · rw [if_pos empty]
    exact Reader.answers_take empty ⟨tail, delivers, rfl⟩

/-- A buffered reader delivers what it holds. -/
theorem delivers_of_holds (holds : r.Holds stop? rest) : Reader.Delivers stop? r rest :=
  ⟨Holds stop?, fun _ _ n holds => read_of_holds holds n, holds⟩

/-- Behind a refill the buffer is empty only at the end. -/
theorem refill_of_holds (holds : r.Holds stop? rest) :
    (∃ r', r.refill = (.ok (), r') ∧ r'.Holds stop? rest ∧ (r'.buffer = [] → rest = [] ∧ stop? = none)) ∨
    (∃ e r', r.refill = (.error e, r') ∧ rest = [] ∧ stop? = some e) := by
  obtain ⟨tail, delivers, rfl⟩ := holds
  unfold refill
  by_cases empty : r.buffer = []
  · rw [if_neg (not_not_intro empty), empty, List.nil_append]
    rcases Reader.retry_of_delivers delivers capacity with
      ⟨bs, inner, tail', ok, rfl, holds, ended⟩ | ⟨e, inner, fails, none, stops⟩
    · simp only [ok]
      exact .inl ⟨⟨inner, bs⟩, rfl, ⟨tail', holds, rfl⟩, fun none => ended none (by decide)⟩
    · simp only [fails]
      exact .inr ⟨e, ⟨inner, []⟩, rfl, none, stops⟩
  · rw [if_pos empty]
    exact .inl ⟨r, rfl, ⟨tail, delivers, rfl⟩, fun none => absurd none empty⟩

theorem refill_ok_of_holds (holds : r.Holds stop? rest) (step : r.refill = (.ok (), r')) :
    r'.Holds stop? rest ∧ (r'.buffer = [] → rest = [] ∧ stop? = none) := by
  rcases refill_of_holds holds with ⟨r₁, ok, held⟩ | ⟨e, r₁, fails, _⟩
  · rw [step] at ok
    cases ok
    exact held
  · rw [step] at fails
    cases fails

theorem refill_error_of_holds (holds : r.Holds stop? rest) {e : ChannelError} (step : r.refill = (.error e, r')) :
    rest = [] ∧ stop? = some e := by
  rcases refill_of_holds holds with ⟨r₁, ok, _⟩ | ⟨e₁, r₁, fails, ended⟩
  · rw [step] at ok
    cases ok
  · rw [step] at fails
    cases fails
    exact ended

/-- Handing out the first line of the buffer leaves what comes behind it. -/
theorem holds_consume (limit? : Option Nat) (holds : r.Holds stop? rest) :
    (r.consume (r.linePart limit?).length).Holds stop? (rest.drop (r.linePart limit?).length) := by
  obtain ⟨tail, delivers, rfl⟩ := holds
  exact ⟨tail, delivers, List.drop_append_of_le_length (r.length_linePart limit?)⟩

theorem readLineAfter_of_holds (before : Array UInt8) (limit? : Option Nat) (holds : r.Holds stop? rest) :
    (∃ r', readLineAfter before r limit? = (.ok (before.toList ++ firstLine limit? rest), r') ∧
      r'.Holds stop? (rest.drop (firstLine limit? rest).length) ∧ (stop? = none ∨ ¬ IsOpen limit? rest)) ∨
    (∃ e r', readLineAfter before r limit? = (.error e, r') ∧ stop? = some e ∧ IsOpen limit? rest) := by
  fun_induction readLineAfter before r limit? generalizing rest with
  | case1 before r =>
    have none : firstLine (some 0) rest = [] := rfl
    refine .inl ⟨r, by simp [none], by simpa [none] using holds, .inr fun isOpen => ?_⟩
    exact Nat.not_lt_zero _ (isOpen.2 0 rfl)
  | case2 before r limit? more e r' step =>
    obtain ⟨rfl, stops⟩ := refill_error_of_holds holds step
    refine .inr ⟨e, r', rfl, stops, by simp, fun limit limited => Nat.pos_of_ne_zero ?_⟩
    rintro rfl
    exact more limited
  | case3 before r limit? more r' step ended =>
    obtain ⟨⟨tail, delivers, cut⟩, empty⟩ := refill_ok_of_holds holds step
    have buffer : r'.buffer = [] := by
      have capped_nil : capped limit? r'.buffer = [] := throughNewline_eq_nil ended
      cases limit? with
      | none => exact capped_nil
      | some limit =>
        exact (List.take_eq_nil_iff.1 capped_nil).resolve_left (fun zero => more (congrArg some zero))
    obtain ⟨rfl, clean⟩ := empty buffer
    have none : firstLine limit? [] = [] := List.prefix_nil.1 (isPrefix_firstLine limit? [])
    exact .inl ⟨r', by simp [none], ⟨tail, delivers, by simpa [none] using cut⟩, .inl clean⟩
  | case4 before r limit? more r' step some last =>
    obtain ⟨held, _⟩ := refill_ok_of_holds holds step
    have same : firstLine limit? rest = r'.linePart limit? := by
      obtain ⟨tail, _, rfl⟩ := held
      exact firstLine_of_newline tail last
    refine .inl ⟨r'.consume (r'.linePart limit?).length, ?_, ?_, .inr fun isOpen => isOpen.1 ?_⟩
    · rw [same, Array.toList_appendList]
    · rw [same]
      exact holds_consume limit? held
    · rw [← same] at last
      exact (isPrefix_firstLine limit? rest).subset (List.mem_of_getLast? last)
  | case5 before r limit? more r' step some last ih =>
    obtain ⟨held, _⟩ := refill_ok_of_holds holds step
    obtain ⟨inside, same⟩ : newline ∉ r'.linePart limit? ∧ firstLine limit? rest = r'.linePart limit? ++
        firstLine (limit?.map (· - (r'.linePart limit?).length)) (rest.drop (r'.linePart limit?).length) := by
      obtain ⟨tail, _, rfl⟩ := held
      exact firstLine_of_not_newline tail last
    have cut : r'.linePart limit? ++ rest.drop (r'.linePart limit?).length = rest := by
      obtain ⟨tail, _, rfl⟩ := held
      exact List.prefix_iff_eq_append.1 ((isPrefix_firstLine limit? r'.buffer).trans (List.prefix_append _ _))
    have goesOn := @isOpen_append limit? _ inside (rest.drop (r'.linePart limit?).length)
    rw [cut] at goesOn
    rw [goesOn]
    rcases ih (holds_consume limit? held) with ⟨r₂, reads, rest', closed⟩ | ⟨e, r₂, reads, stops, isOpen⟩
    · refine .inl ⟨r₂, ?_, ?_, closed⟩
      · rw [reads, same]
        simp
      · rw [same, List.length_append, ← List.drop_drop]
        exact rest'
    · exact .inr ⟨e, r₂, reads, stops, isOpen⟩

/-- The line that is read is the first one, unless it goes on behind the bytes and a failure comes there. -/
theorem readLine_of_holds (limit? : Option Nat) (holds : r.Holds stop? rest) :
    (∃ r', r.readLine limit? = (.ok (firstLine limit? rest), r') ∧
      r'.Holds stop? (rest.drop (firstLine limit? rest).length) ∧ (stop? = none ∨ ¬ IsOpen limit? rest)) ∨
    (∃ e r', r.readLine limit? = (.error e, r') ∧ stop? = some e ∧ IsOpen limit? rest) :=
  readLineAfter_of_holds #[] limit? holds

/-- A line is read as it is taken from what the reader holds. -/
theorem readLine_eq_takeLine (limit? : Option Nat) (holds : r.Holds stop? rest) :
    (∃ line rest' r', takeLine stop? limit? rest = .ok (line, rest') ∧ r.readLine limit? = (.ok line, r') ∧
      r'.Holds stop? rest') ∨
    (∃ e r', takeLine stop? limit? rest = .error e ∧ r.readLine limit? = (.error e, r')) := by
  rcases readLine_of_holds limit? holds with ⟨r', reads, left, closed⟩ | ⟨e, r', fails, stops, isOpen⟩
  · exact .inl ⟨_, _, r', takeLine_of_not_isOpen closed, reads, left⟩
  · rw [stops]
    exact .inr ⟨e, r', takeLine_of_isOpen e isOpen, fails⟩

/-- A line that is taken is read. -/
theorem readLine_of_takeLine {limit? : Option Nat} (holds : r.Holds stop? rest) {line rest' : Bytes}
    (takes : takeLine stop? limit? rest = .ok (line, rest')) :
    ∃ r', r.readLine limit? = (.ok line, r') ∧ r'.Holds stop? rest' := by
  rcases readLine_eq_takeLine limit? holds with ⟨line₁, rest₁, r₁, same, reads, left⟩ | ⟨e, r₁, fails, _⟩
  · rw [takes] at same
    cases same
    exact ⟨r₁, reads, left⟩
  · rw [takes] at fails
    cases fails

theorem takeLine_of_readLine_ok {limit? : Option Nat} (holds : r.Holds stop? rest) {line : Bytes}
    (step : r.readLine limit? = (.ok line, r')) :
    ∃ rest', takeLine stop? limit? rest = .ok (line, rest') ∧ r'.Holds stop? rest' := by
  rcases readLine_eq_takeLine limit? holds with ⟨line₁, rest', r₁, takes, reads, left⟩ | ⟨e, r₁, _, reads⟩
  · rw [step] at reads
    cases reads
    exact ⟨rest', takes, left⟩
  · rw [step] at reads
    cases reads

theorem takeLine_of_readLine_error {limit? : Option Nat} (holds : r.Holds stop? rest) {e : ChannelError}
    (step : r.readLine limit? = (.error e, r')) : takeLine stop? limit? rest = .error e := by
  rcases readLine_eq_takeLine limit? holds with ⟨line, rest', r₁, _, reads, _⟩ | ⟨e₁, r₁, takes, reads⟩
  · rw [step] at reads
    cases reads
  · rw [step] at reads
    cases reads
    exact takes

end Buffered

end AgeCrypt
