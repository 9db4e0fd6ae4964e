import AgeCrypt.Proofs.HeaderLines

/-!
# Parsers of lines

A line of a header can also be read by parsers that take characters from the front of a text. Repeating a parser
(`LineParser.many`) and taking characters of a kind (`LineParser.upTo`) stop silently where something else stands, so that only
the end of the line decides (`LineParser.whole`): the tokens go on up to a character that is not a space, of which there is none
behind a token (`Line.tokensParser_eq_some_iff`), and a body up to a character that is not one of Base64, or to its last column.
The parsers leave nothing over and accept the same lines as `Line.stanza`, `Line.footer` and `Line.body`. Main statement:
`Line.accepted_iff`.
-/

namespace AgeCrypt

/-- What takes characters from the front of a text and leaves the others, or fails. -/
def LineParser (α : Type) := List Char → Option (α × List Char)

namespace LineParser
variable {α β : Type}

/-- Takes this text. -/
def tag (text : String) : LineParser String := fun cs =>
  if text.toList.isPrefixOf cs then some (text, cs.drop text.toList.length) else none

/-- Takes this character. -/
def char (c : Char) : LineParser Char
  | [] => none
  | d :: cs => if d = c then some (c, cs) else none

/-- Takes all characters before one of a kind. -/
def till (kind : Char → Bool) : LineParser String := fun cs =>
  some (String.ofList (cs.takeWhile fun c => !kind c), cs.dropWhile fun c => !kind c)

/-- Takes characters of a kind, up to a number of them. -/
def upTo (most : Nat) (kind : Char → Bool) : LineParser (List Char) := fun cs =>
  let taken := (cs.take most).takeWhile kind
  some (taken, cs.drop taken.length)

/-- Takes what the first parser takes and then what the second does, and gives what the second gives. -/
def preceded (first : LineParser β) (second : LineParser α) : LineParser α := fun cs =>
  (first cs).bind fun (_, rest) => second rest

/-- Gives what becomes of what was given, or fails. -/
def mapResult (p : LineParser β) (f : β → Option α) : LineParser α := fun cs =>
  (p cs).bind fun (b, rest) => (f b).map fun a => (a, rest)

/-- Repeats a parser until it fails. A parser that takes nothing cannot be repeated. -/
def many (p : LineParser α) (cs : List Char) : Option (List α × List Char) :=
  match p cs with
  | none => some ([], cs)
  | some (a, rest) =>
    if rest.length < cs.length then (many p rest).map fun (as, last) => (a :: as, last)
    else none
termination_by cs.length

/-- Fails if anything is left over. -/
def whole (p : LineParser α) : LineParser α := fun cs => (p cs).filter fun (_, rest) => rest.isEmpty

theorem whole_eq_some_iff {p : LineParser α} {cs rest : List Char} {a : α} :
    whole p cs = some (a, rest) ↔ rest = [] ∧ p cs = some (a, []) := by
  rw [whole, Option.filter_eq_some_iff, List.isEmpty_iff]
  constructor
  · rintro ⟨takes, rfl⟩
    exact ⟨rfl, takes⟩
  · rintro ⟨rfl, takes⟩
    exact ⟨takes, rfl⟩

end LineParser

namespace Line
open LineParser

/-- A space and the characters before the next one. -/
def token : LineParser String := preceded (char ' ') (till (· = ' '))

def tokensParser : LineParser (List String) := many token

/-- A token that is taken stands in front with a space before it. -/
theorem token_eq_some {cs rest : List Char} {t : String} (takes : token cs = some (t, rest)) :
    cs = ' ' :: t.toList ++ rest ∧ ' ' ∉ t.toList := by
  obtain ⟨⟨c, behind⟩, space, takes⟩ := Option.bind_eq_some_iff.1 takes
  cases cs with
  | nil => cases space
  | cons d cs =>
    obtain ⟨rfl, same⟩ := Option.ite_none_right_eq_some.1 space
    cases same
    cases takes
    rw [String.toList_ofList]
    refine ⟨congrArg (' ' :: ·) List.takeWhile_append_dropWhile.symm, fun member => ?_⟩
    exact absurd (List.all_eq_true.1 List.all_takeWhile _ member) (by decide)

/-- A token goes up to the next space. -/
theorem token_append {t : String} {rest : List Char} (inside : ' ' ∉ t.toList) (next : ∀ c ∈ rest.head?, c = ' ') :
    token (' ' :: t.toList ++ rest) = some (t, rest) := by
  have others : ∀ c ∈ t.toList, (!decide (c = ' ')) = true := by
    rintro c member
    rw [Bool.not_eq_true', decide_eq_false_iff_not]
    rintro rfl
    exact inside member
  have taken : (rest.takeWhile fun c => !decide (c = ' ')) = [] ∧ (rest.dropWhile fun c => !decide (c = ' ')) = rest := by
    cases rest with
    | nil => exact ⟨rfl, rfl⟩
    | cons c rest => simp [next c rfl]
  show till (· = ' ') (t.toList ++ rest) = _
  rw [till, List.takeWhile_append_of_pos others, List.dropWhile_append_of_pos others, taken.1, taken.2, List.append_nil,
    String.ofList_toList]

/-- The tokens that are taken stand in front, each with a space before it. -/
theorem tokensParser_eq_some {cs rest : List Char} {ts : List String} (takes : tokensParser cs = some (ts, rest)) :
    cs = (ts.flatMap fun t => ' ' :: t.toList) ++ rest ∧ ∀ t ∈ ts, ' ' ∉ t.toList := by
  unfold tokensParser at takes
  fun_induction many token cs generalizing ts with
  | case1 cs fails =>
    cases takes
    exact ⟨rfl, List.forall_mem_nil _⟩
  | case2 cs t behind step shorter ih =>
    obtain ⟨⟨others, last⟩, found, same⟩ := Option.map_eq_some_iff.1 takes
    cases same
    obtain ⟨rfl, inside⟩ := token_eq_some step
    obtain ⟨rfl, all⟩ := ih found
    exact ⟨by simp, List.forall_mem_cons.2 ⟨inside, all⟩⟩
  | case3 cs t behind step longer => cases takes

/-- Tokens with a space before each are all taken. -/
theorem tokensParser_flatMap {ts : List String} (inside : ∀ t ∈ ts, ' ' ∉ t.toList) :
    tokensParser (ts.flatMap fun t => ' ' :: t.toList) = some (ts, []) := by
  induction ts with
  | nil =>
    rw [tokensParser, many]
    rfl
  | cons t ts ih =>
    obtain ⟨first, others⟩ := List.forall_mem_cons.1 inside
    have next : ∀ c ∈ (ts.flatMap fun t => ' ' :: t.toList).head?, c = ' ' := by
      cases ts with
      | nil => exact fun c none => by cases none
      | cons t' ts => exact fun c same => (Option.some.inj same).symm
    have step := token_append first next
    rw [List.flatMap_cons, tokensParser, many, step]
    dsimp only
    rw [if_pos (by rw [List.length_append, List.length_cons]; omega), ← tokensParser, ih others]
    rfl

/-- A mark and tokens behind it, up to the end of the line. -/
def markedParser (mark : String) : LineParser (List String) := whole (preceded (tag mark) tokensParser)

def stanzaParser : LineParser (List String) := markedParser stanzaMark

def footerParser : LineParser (List String) := markedParser footerMark

/-- The parser leaves nothing over and takes the same lines. -/
theorem markedParser_eq (mark line : String) :
    markedParser mark line.toList = (tokensAfter mark line).map fun ts => (ts, []) := by
  ext ⟨ts, rest⟩
  rw [markedParser, whole_eq_some_iff, Option.map_eq_some_iff]
  constructor
  · rintro ⟨rfl, takes⟩
    obtain ⟨⟨text, behind⟩, marked, takes⟩ := Option.bind_eq_some_iff.1 takes
    obtain ⟨front, same⟩ := Option.ite_none_right_eq_some.1 marked
    cases same
    obtain ⟨cut, inside⟩ := tokensParser_eq_some takes
    refine ⟨ts, tokensAfter_eq_some_iff.2 ⟨?_, inside⟩, rfl⟩
    have joined := List.prefix_iff_eq_append.1 (List.isPrefixOf_iff_prefix.1 front)
    rw [cut, List.append_nil] at joined
    rw [join, joined, String.ofList_toList]
  · rintro ⟨_, found, same⟩
    cases same
    obtain ⟨rfl, inside⟩ := tokensAfter_eq_some_iff.1 found
    refine ⟨rfl, Option.bind_eq_some_iff.2 ⟨(mark, _), if_pos (hasMark_join mark ts), ?_⟩⟩
    rw [toList_join, List.drop_left]
    exact tokensParser_flatMap inside

def isBase64 (c : Char) : Bool := c.isAlphanum || c = '+' || c = '/'

def bodyParser : LineParser Bytes := whole (mapResult (upTo bodyColumns isBase64) Base64.decode)

theorem isBase64_of_mem_encode {c : Char} {bs : Bytes} (member : c ∈ Base64.encode bs) : isBase64 c = true := by
  have all : Base64.alphabet.all isBase64 = true := by decide +kernel
  exact List.all_eq_true.1 all c (Base64.mem_alphabet_of_mem_encode member)

/-- The parser leaves nothing over and takes the same lines: up to another character or the last column, no Base64 is lost. -/
theorem bodyParser_eq (line : String) : bodyParser line.toList = (body line).map fun bs => (bs, []) := by
  ext ⟨bs, rest⟩
  rw [bodyParser, whole_eq_some_iff, Option.map_eq_some_iff]
  constructor
  · rintro ⟨rfl, takes⟩
    obtain ⟨⟨taken, behind⟩, upTo, found⟩ := Option.bind_eq_some_iff.1 takes
    cases upTo
    obtain ⟨_, decoded, same⟩ := Option.map_eq_some_iff.1 found
    obtain ⟨rfl, ended⟩ := Prod.mk.inj same
    have front : ((line.toList.take bodyColumns).takeWhile isBase64) <+: line.toList :=
      (List.takeWhile_prefix isBase64).trans (List.take_prefix bodyColumns line.toList)
    have all := front.eq_of_length_le (List.drop_eq_nil_iff.1 ended)
    have short := (List.takeWhile_prefix isBase64 (l := line.toList.take bodyColumns)).length_le
    rw [all] at decoded short
    refine ⟨_, ?_, rfl⟩
    rw [body, if_pos (Nat.le_trans short (List.length_take_le _ _)), decoded]
  · rintro ⟨_, found, same⟩
    cases same
    obtain ⟨rfl, short⟩ := body_eq_some_iff.1 found
    rw [← length_le_bodyColumns_iff, Base64.toList_encodeText] at short
    have taken : (Base64.encode bs ++ []).takeWhile isBase64 = Base64.encode bs ++ [].takeWhile isBase64 :=
      List.takeWhile_append_of_pos fun c member => isBase64_of_mem_encode member
    rw [List.takeWhile_nil, List.append_nil] at taken
    refine ⟨rfl, Option.bind_eq_some_iff.2 ⟨(Base64.encode bs, []), ?_, ?_⟩⟩
    · rw [upTo, Base64.toList_encodeText, List.take_of_length_le short, taken, List.drop_length]
    · dsimp only
      rw [Base64.decode_eq_some_iff.2 rfl]
      rfl

theorem join_eq_append (mark : String) (ts : List String) : join mark ts = mark ++ String.join (ts.map (" " ++ ·)) := by
  rw [← String.toList_inj, toList_join, String.toList_append, String.toList_join, List.flatMap_map]
  simp only [String.toList_append]
  rfl

/-- A line is read as tokens if it is the mark with a space and a token behind it for each of them, none of which holds a
    space, and as the bytes of a body if it is their Base64 and they are no more than 48. Their Base64 is shorter than 64
    columns exactly if they are fewer. The parsers take the same lines, and leave nothing over. -/
theorem accepted_iff (line : String) :
    (∀ ts, stanza line = some ts ↔ (∀ t ∈ ts, ' ' ∉ t.toList) ∧ line = "->" ++ String.join (ts.map (" " ++ ·))) ∧
    (∀ ts, footer line = some ts ↔ (∀ t ∈ ts, ' ' ∉ t.toList) ∧ line = "---" ++ String.join (ts.map (" " ++ ·))) ∧
    (∀ bs, body line = some bs ↔ bs.length ≤ 48 ∧ line = Base64.encodeText bs) ∧
    (∀ bs, (Base64.encodeText bs).length < 64 ↔ bs.length < 48) ∧
    stanzaParser line.toList = (stanza line).map (fun ts => (ts, [])) ∧
    footerParser line.toList = (footer line).map (fun ts => (ts, [])) ∧
    bodyParser line.toList = (body line).map (fun bs => (bs, [])) := by
  have tokens_iff (mark : String) (ts : List String) : tokensAfter mark line = some ts ↔
      (∀ t ∈ ts, ' ' ∉ t.toList) ∧ line = mark ++ String.join (ts.map (" " ++ ·)) := by
    rw [tokensAfter_eq_some_iff, join_eq_append, and_comm]
  refine ⟨tokens_iff stanzaMark, tokens_iff footerMark, fun bs => ?_, length_lt_bodyColumns_iff,
    markedParser_eq stanzaMark line, markedParser_eq footerMark line, bodyParser_eq line⟩
  rw [body_eq_some_iff, and_comm]
  rfl

/-- Of two spaces the first has an empty token behind it, and so has one at the end of the line. -/
example : stanza "-> a  b " = some ["a", "", "b", ""] := by decide +kernel

end Line

end AgeCrypt
