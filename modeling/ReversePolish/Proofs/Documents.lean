import Mathlib.Tactic.SplitIfs
import ReversePolish.Json

/-!
# Reading JSON documents

The grammar of JSON documents, for the values that reports are made of, and a reader of it. White
space may stand around every value and every mark, and a character of a string may be escaped in any
of the ways that JSON has for it.

* `Json.CharForm`, `Json.TextForm`: the forms of a character and of a text inside a string.
* `Json.Phrase`, `Json.Spells`: the parts of a document and the characters that spell them, one
  constructor for each production.
* `Json.read?`: the value of a document, read from the front with rules that each leave less text.
* `Json.readWhole_of_spells`: what the grammar spells is read whole, whatever follows it, so that a
  document has one value (`Json.read?_of_isDocument`).
* `Json.writes_value`: a value is written in a form that the grammar has, at any depth, and the only
  control characters in it are line feeds (`Json.isDocument_pretty`).
-/

namespace ReversePolish

namespace Json

/-! ## The grammar -/

/-- White space, which may stand around values and marks. -/
def isSpace (c : Char) : Bool := c == ' ' || c == '\t' || c == '\n' || c == '\r'

/-- The characters with a short escape, each behind the letter of its escape. -/
def shortEscapes : List (Char × Char) :=
  [('"', '"'), ('\\', '\\'), ('/', '/'), ('b', '\x08'), ('f', '\x0c'), ('n', '\n'), ('r', '\r'),
    ('t', '\t')]

/-- The value of a hexadecimal digit, in upper or lower case. -/
def hexValue? (c : Char) : Option Nat :=
  if c.isDigit then some (c.toNat - '0'.toNat)
  else if 'a' ≤ c ∧ c ≤ 'f' then some (c.toNat - 'a'.toNat + 10)
  else if 'A' ≤ c ∧ c ≤ 'F' then some (c.toNat - 'A'.toNat + 10)
  else none

/-- The number that four hexadecimal digits spell. -/
def hexNumber? (w x y z : Char) : Option Nat := do
  return (((← hexValue? w) * 16 + (← hexValue? x)) * 16 + (← hexValue? y)) * 16 + (← hexValue? z)

/-- A form of the character inside a string: the character itself unless it is a quote, a backslash
or a control character, its short escape, or the four digits of its code point. Pairs of such
escapes, for code points that need more digits, are left out: these characters stand for
themselves. -/
inductive CharForm : Char → List Char → Prop where
  | plain {c : Char} : c ≠ '"' → c ≠ '\\' → 0x20 ≤ c.toNat → CharForm c [c]
  | short {letter c : Char} : (letter, c) ∈ shortEscapes → CharForm c ['\\', letter]
  | code {w x y z c : Char} :
    hexNumber? w x y z = some c.toNat → CharForm c ['\\', 'u', w, x, y, z]

/-- A form of the text inside a string, character by character. -/
inductive TextForm : List Char → List Char → Prop where
  | nil : TextForm [] []
  | cons {c : Char} {text form forms : List Char} :
    CharForm c form → TextForm text forms → TextForm (c :: text) (form ++ forms)

/-- The parts of a document. An element is a value with white space around it. -/
inductive Phrase where
  | value (v : Json)
  | element (v : Json)
  | elements (vs : List Json)
  | member (m : String × Json)
  | members (ms : List (String × Json))

/-- The characters spell the part of a document. -/
inductive Spells : Phrase → List Char → Prop where
  | string {text : String} {form : List Char} :
    TextForm text.toList form → Spells (.value (.string text)) ('"' :: (form ++ ['"']))
  | emptyArray {ws : List Char} :
    ws.all isSpace = true → Spells (.value (.array [])) ('[' :: (ws ++ [']']))
  | array {vs : List Json} {cs : List Char} :
    Spells (.elements vs) cs → Spells (.value (.array vs)) ('[' :: (cs ++ [']']))
  | emptyObject {ws : List Char} :
    ws.all isSpace = true → Spells (.value (.object [])) ('\x7b' :: (ws ++ ['\x7d']))
  | object {ms : List (String × Json)} {cs : List Char} :
    Spells (.members ms) cs → Spells (.value (.object ms)) ('\x7b' :: (cs ++ ['\x7d']))
  | element {v : Json} {before cs after : List Char} :
    before.all isSpace = true → Spells (.value v) cs → after.all isSpace = true →
      Spells (.element v) (before ++ (cs ++ after))
  | lastElement {v : Json} {cs : List Char} : Spells (.element v) cs → Spells (.elements [v]) cs
  | elements {v : Json} {vs : List Json} {cs ds : List Char} :
    Spells (.element v) cs → Spells (.elements vs) ds →
      Spells (.elements (v :: vs)) (cs ++ ',' :: ds)
  | member {key : String} {v : Json} {before form after cs : List Char} :
    before.all isSpace = true → TextForm key.toList form → after.all isSpace = true →
      Spells (.element v) cs →
        Spells (.member (key, v)) (before ++ '"' :: (form ++ '"' :: (after ++ ':' :: cs)))
  | lastMember {m : String × Json} {cs : List Char} :
    Spells (.member m) cs → Spells (.members [m]) cs
  | members {m : String × Json} {ms : List (String × Json)} {cs ds : List Char} :
    Spells (.member m) cs → Spells (.members ms) ds →
      Spells (.members (m :: ms)) (cs ++ ',' :: ds)

/-- The text is a document of the value. -/
def IsDocument (v : Json) (text : String) : Prop := Spells (.element v) text.toList

/-! ## The reader -/

/-- What is taken off the front of a text, and the text after it, shorter than `n`. -/
structure Taken (α : Type) (n : Nat) where
  value : α
  rest : List Char
  length_lt : rest.length < n

/-- The same, taken as something else off the front of a longer text. -/
def Taken.lift {α β : Type} {m n : Nat} (t : Taken α m) (f : α → β) (h : m ≤ n) : Taken β n :=
  ⟨f t.value, t.rest, Nat.lt_of_lt_of_le t.length_lt h⟩

/-- The first character that is not white space. -/
def front? : (text : List Char) → Option (Taken Char text.length)
  | [] => none
  | c :: cs =>
    if isSpace c then (front? cs).map (·.lift id (Nat.le_succ _))
    else some ⟨c, cs, Nat.lt_succ_self _⟩

/-- The code point that four digits spell, as a character. -/
def codePoint? : (text : List Char) → Option (Taken Char text.length)
  | w :: x :: y :: z :: rest => do
    let n ← hexNumber? w x y z
    if (Char.ofNat n).toNat = n then some ⟨Char.ofNat n, rest, by simp; omega⟩ else none
  | _ => none

/-- The character behind a backslash. -/
def escaped? : (text : List Char) → Option (Taken Char text.length)
  | [] => none
  | letter :: cs =>
    if letter = 'u' then (codePoint? cs).map (·.lift id (Nat.le_succ _))
    else (shortEscapes.lookup letter).map (⟨·, cs, Nat.lt_succ_self _⟩)

/-- One character of a string. -/
def character? : (text : List Char) → Option (Taken Char text.length)
  | [] => none
  | c :: cs =>
    if c = '\\' then (escaped? cs).map (·.lift id (Nat.le_succ _))
    else if c = '"' ∨ c.toNat < 0x20 then none
    else some ⟨c, cs, Nat.lt_succ_self _⟩

/-- The characters of a string up to its closing quote. -/
def string? : (text : List Char) → Option (Taken (List Char) text.length)
  | [] => none
  | c :: cs =>
    if c = '"' then some ⟨[], cs, Nat.lt_succ_self _⟩
    else do
      let first ← character? (c :: cs)
      let more ← string? first.rest
      return ⟨first.value :: more.value, more.rest, Nat.lt_trans more.length_lt first.length_lt⟩
termination_by text => text.length
decreasing_by exact first.length_lt

mutual

/-- A value, with white space before it. -/
def value? (text : List Char) : Option (Taken Json text.length) := do
  let first ← front? text
  if first.value = '"' then
    let content ← string? first.rest
    return content.lift (fun cs => .string (String.ofList cs)) (Nat.le_of_lt first.length_lt)
  else if first.value = '[' then
    let next ← front? first.rest
    if next.value = ']' then
      return next.lift (fun _ => .array []) (Nat.le_of_lt first.length_lt)
    else
      let inner ← elements? first.rest
      return inner.lift .array (Nat.le_of_lt first.length_lt)
  else if first.value = '\x7b' then
    let next ← front? first.rest
    if next.value = '\x7d' then
      return next.lift (fun _ => .object []) (Nat.le_of_lt first.length_lt)
    else
      let inner ← members? first.rest
      return inner.lift .object (Nat.le_of_lt first.length_lt)
  else none
termination_by (text.length, 0)
decreasing_by all_goals exact Prod.Lex.left _ _ first.length_lt

/-- The elements of an array up to its closing bracket. -/
def elements? (text : List Char) : Option (Taken (List Json) text.length) := do
  let item ← value? text
  let mark ← front? item.rest
  if mark.value = ']' then
    return mark.lift (fun _ => [item.value]) (Nat.le_of_lt item.length_lt)
  else if mark.value = ',' then
    let more ← elements? mark.rest
    return more.lift (item.value :: ·) (Nat.le_of_lt (Nat.lt_trans mark.length_lt item.length_lt))
  else none
termination_by (text.length, 1)
decreasing_by
  · exact Prod.Lex.right _ (by decide)
  · exact Prod.Lex.left _ _ (Nat.lt_trans mark.length_lt item.length_lt)

/-- A member of an object, with white space before it. -/
def member? (text : List Char) : Option (Taken (String × Json) text.length) := do
  let first ← front? text
  if first.value = '"' then
    let key ← string? first.rest
    let colon ← front? key.rest
    if colon.value = ':' then
      let item ← value? colon.rest
      return item.lift (String.ofList key.value, ·) (Nat.le_of_lt
        (Nat.lt_trans colon.length_lt (Nat.lt_trans key.length_lt first.length_lt)))
    else none
  else none
termination_by (text.length, 0)
decreasing_by
  exact Prod.Lex.left _ _
    (Nat.lt_trans colon.length_lt (Nat.lt_trans key.length_lt first.length_lt))

/-- The members of an object up to its closing brace. -/
def members? (text : List Char) : Option (Taken (List (String × Json)) text.length) := do
  let item ← member? text
  let mark ← front? item.rest
  if mark.value = '\x7d' then
    return mark.lift (fun _ => [item.value]) (Nat.le_of_lt item.length_lt)
  else if mark.value = ',' then
    let more ← members? mark.rest
    return more.lift (item.value :: ·) (Nat.le_of_lt (Nat.lt_trans mark.length_lt item.length_lt))
  else none
termination_by (text.length, 1)
decreasing_by
  · exact Prod.Lex.right _ (by decide)
  · exact Prod.Lex.left _ _ (Nat.lt_trans mark.length_lt item.length_lt)

end

/-- The value of a document, with nothing but white space after it. -/
def read? (text : String) : Option Json := do
  let whole ← value? text.toList
  if whole.rest.all isSpace then some whole.value else none

/-! ## What the rules take -/

/-- The rule takes `a` off the front and leaves `rest`. -/
def Takes {α : Type} {n : Nat} (x : Option (Taken α n)) (a : α) (rest : List Char) : Prop :=
  ∃ h, x = some ⟨a, rest, h⟩

namespace Takes

variable {α β : Type} {m n : Nat} {x : Option (Taken α m)} {a : α} {b : β} {rest rest' : List Char}

theorem bind {f : Taken α m → Option (Taken β n)} (hx : Takes x a rest)
    (hf : ∀ h, Takes (f ⟨a, rest, h⟩) b rest') : Takes (x >>= f) b rest' := by
  obtain ⟨h, rfl⟩ := hx
  exact hf h

theorem lift (f : α → β) (h : m ≤ n) (hLt : rest.length < m) (hf : f a = b) :
    Takes (some ((⟨a, rest, hLt⟩ : Taken α m).lift f h)) b rest :=
  ⟨Nat.lt_of_lt_of_le hLt h, by rw [← hf]; rfl⟩

theorem map_lift (hx : Takes x a rest) (f : α → β) (h : m ≤ n) :
    Takes (x.map (·.lift f h)) (f a) rest := by
  obtain ⟨hLt, rfl⟩ := hx
  exact ⟨Nat.lt_of_lt_of_le hLt h, rfl⟩

end Takes

theorem takes_front? {ws : List Char} (h : ws.all isSpace = true) {c : Char}
    (hc : isSpace c = false) (rest : List Char) : Takes (front? (ws ++ c :: rest)) c rest := by
  induction ws with
  | nil =>
    rw [List.nil_append, front?, if_neg (by simp [hc])]
    exact ⟨_, rfl⟩
  | cons w ws ih =>
    rw [List.all_cons, Bool.and_eq_true] at h
    rw [List.cons_append, front?, if_pos h.1]
    exact (ih h.2).map_lift id _

theorem lookup_shortEscapes {letter c : Char} (h : (letter, c) ∈ shortEscapes) :
    letter ≠ 'u' ∧ 0x20 ≤ letter.toNat ∧ shortEscapes.lookup letter = some c := by
  have hAll : ∀ escape ∈ shortEscapes, escape.1 ≠ 'u' ∧ 0x20 ≤ escape.1.toNat ∧
      shortEscapes.lookup escape.1 = some escape.2 := by decide
  exact hAll (letter, c) h

theorem takes_character? {c : Char} {form : List Char} (h : CharForm c form) (rest : List Char) :
    Takes (character? (form ++ rest)) c rest := by
  cases h with
  | plain hQuote hBackslash hControl =>
    have hNot : ¬ (c = '"' ∨ c.toNat < 0x20) := by
      rintro (h | h)
      · exact hQuote h
      · omega
    rw [List.cons_append, List.nil_append, character?, if_neg hBackslash, if_neg hNot]
    exact ⟨_, rfl⟩
  | @short letter c hShort =>
    obtain ⟨hLetter, -, hLookup⟩ := lookup_shortEscapes hShort
    have hEscaped : Takes (escaped? (letter :: rest)) c rest := by
      rw [escaped?, if_neg hLetter, hLookup]
      exact ⟨_, rfl⟩
    rw [List.cons_append, List.cons_append, List.nil_append, character?, if_pos rfl]
    exact hEscaped.map_lift id _
  | @code w x y z c hCode =>
    have hPoint : Takes (codePoint? (w :: x :: y :: z :: rest)) c rest := by
      simp only [codePoint?, hCode, bind, Option.bind, Char.ofNat_toNat, if_true]
      exact ⟨_, rfl⟩
    have hEscaped : Takes (escaped? ('u' :: w :: x :: y :: z :: rest)) c rest := by
      rw [escaped?, if_pos rfl]
      exact hPoint.map_lift id _
    exact hEscaped.map_lift id _

theorem CharForm.exists_head {c : Char} {form : List Char} (h : CharForm c form) :
    ∃ d ds, form = d :: ds ∧ d ≠ '"' := by
  cases h with
  | plain hQuote _ _ => exact ⟨c, [], rfl, hQuote⟩
  | short _ => exact ⟨'\\', _, rfl, by decide⟩
  | code _ => exact ⟨'\\', _, rfl, by decide⟩

theorem takes_string? {text form : List Char} (h : TextForm text form) (rest : List Char) :
    Takes (string? (form ++ '"' :: rest)) text rest := by
  induction h with
  | nil =>
    rw [List.nil_append, string?, if_pos rfl]
    exact ⟨_, rfl⟩
  | @cons c text form forms hChar _ ih =>
    have hFirst := takes_character? hChar (forms ++ '"' :: rest)
    obtain ⟨d, ds, rfl, hQuote⟩ := hChar.exists_head
    rw [List.append_assoc, List.cons_append, string?, if_neg hQuote]
    refine hFirst.bind fun hLt => ih.bind fun hLt' => ?_
    exact ⟨_, rfl⟩

/-- Behind its opening bracket an array is empty if the closing one comes first, and else its
elements are read. -/
theorem takes_array {before text rest rest' : List Char} {c : Char} {vs : List Json}
    (hBefore : before.all isSpace = true) (hFront : Takes (front? text) c rest')
    (hEmpty : c = ']' → vs = [] ∧ rest = rest')
    (hElements : c ≠ ']' → Takes (elements? text) vs rest) :
    Takes (value? (before ++ '[' :: text)) (.array vs) rest := by
  rw [value?]
  refine (takes_front? hBefore (by decide) text).bind fun _ => ?_
  rw [if_neg (show ¬ '[' = '"' by decide), if_pos rfl]
  refine hFront.bind fun _ => ?_
  by_cases hClose : c = ']'
  · obtain ⟨rfl, rfl⟩ := hEmpty hClose
    rw [if_pos hClose]
    exact .lift _ _ _ rfl
  · rw [if_neg hClose]
    exact (hElements hClose).bind fun _ => .lift _ _ _ rfl

theorem takes_object {before text rest rest' : List Char} {c : Char} {ms : List (String × Json)}
    (hBefore : before.all isSpace = true) (hFront : Takes (front? text) c rest')
    (hEmpty : c = '\x7d' → ms = [] ∧ rest = rest')
    (hMembers : c ≠ '\x7d' → Takes (members? text) ms rest) :
    Takes (value? (before ++ '\x7b' :: text)) (.object ms) rest := by
  rw [value?]
  refine (takes_front? hBefore (by decide) text).bind fun _ => ?_
  rw [if_neg (show ¬ '\x7b' = '"' by decide), if_neg (show ¬ '\x7b' = '[' by decide), if_pos rfl]
  refine hFront.bind fun _ => ?_
  by_cases hClose : c = '\x7d'
  · obtain ⟨rfl, rfl⟩ := hEmpty hClose
    rw [if_pos hClose]
    exact .lift _ _ _ rfl
  · rw [if_neg hClose]
    exact (hMembers hClose).bind fun _ => .lift _ _ _ rfl

/-! ## What the grammar spells is read -/

/-- How the rule for each part of a document reads it. A value is read with white space before it
and left with what follows; elements and members are read up to the mark that closes them. -/
def ReadWhole : Phrase → List Char → Prop
  | .value v, cs => ∀ before rest, before.all isSpace = true →
      Takes (value? (before ++ (cs ++ rest))) v rest
  | .element v, cs => ∀ rest, ∃ after, after.all isSpace = true ∧
      Takes (value? (cs ++ rest)) v (after ++ rest)
  | .elements vs, cs => ∀ rest, Takes (elements? (cs ++ ']' :: rest)) vs rest
  | .member m, cs => ∀ rest, ∃ after, after.all isSpace = true ∧
      Takes (member? (cs ++ rest)) m (after ++ rest)
  | .members ms, cs => ∀ rest, Takes (members? (cs ++ '\x7d' :: rest)) ms rest

/-- Every part of a document has a first character that opens a value. -/
theorem Spells.exists_front {p : Phrase} {cs : List Char} (h : Spells p cs) :
    ∃ before c rest, before.all isSpace = true ∧ (c = '"' ∨ c = '[' ∨ c = '\x7b') ∧
      cs = before ++ c :: rest := by
  induction h with
  | string _ => exact ⟨[], _, _, rfl, Or.inl rfl, rfl⟩
  | emptyArray _ => exact ⟨[], _, _, rfl, Or.inr (Or.inl rfl), rfl⟩
  | array _ _ => exact ⟨[], _, _, rfl, Or.inr (Or.inl rfl), rfl⟩
  | emptyObject _ => exact ⟨[], _, _, rfl, Or.inr (Or.inr rfl), rfl⟩
  | object _ _ => exact ⟨[], _, _, rfl, Or.inr (Or.inr rfl), rfl⟩
  | @element v before cs after hBefore _ _ ih =>
    obtain ⟨before', c, rest, hBefore', hOpen, rfl⟩ := ih
    refine ⟨before ++ before', c, rest ++ after, ?_, hOpen, by simp⟩
    rw [List.all_append, hBefore, hBefore']
    rfl
  | lastElement _ ih => exact ih
  | @elements v vs cs ds _ _ ih _ =>
    obtain ⟨before, c, rest, hBefore, hOpen, rfl⟩ := ih
    exact ⟨before, c, rest ++ ',' :: ds, hBefore, hOpen, by simp⟩
  | member hBefore _ _ _ _ => exact ⟨_, _, _, hBefore, Or.inl rfl, rfl⟩
  | lastMember _ ih => exact ih
  | @members m ms cs ds _ _ ih _ =>
    obtain ⟨before, c, rest, hBefore, hOpen, rfl⟩ := ih
    exact ⟨before, c, rest ++ ',' :: ds, hBefore, hOpen, by simp⟩

/-- What stands inside brackets does not start with the mark that closes them. -/
theorem Spells.takes_front? {p : Phrase} {cs : List Char} (h : Spells p cs) (rest : List Char) :
    ∃ c rest', Takes (front? (cs ++ rest)) c rest' ∧ c ≠ ']' ∧ c ≠ '\x7d' := by
  obtain ⟨before, c, rest', hBefore, hOpen, rfl⟩ := h.exists_front
  have hMark : isSpace c = false ∧ c ≠ ']' ∧ c ≠ '\x7d' := by
    rcases hOpen with rfl | rfl | rfl <;> decide
  refine ⟨c, rest' ++ rest, ?_, hMark.2⟩
  rw [List.append_assoc, List.cons_append]
  exact Json.takes_front? hBefore hMark.1 (rest' ++ rest)

theorem readWhole_of_spells {p : Phrase} {cs : List Char} (h : Spells p cs) : ReadWhole p cs := by
  induction h with
  | @string text form hForm =>
    intro before rest hBefore
    have hText : before ++ ('"' :: (form ++ ['"']) ++ rest) =
        before ++ '"' :: (form ++ '"' :: rest) := by simp
    rw [hText, value?]
    refine (takes_front? hBefore (by decide) _).bind fun _ => ?_
    rw [if_pos rfl]
    exact (takes_string? hForm rest).bind fun _ =>
      .lift _ _ _ (congrArg Json.string String.ofList_toList)
  | @emptyArray ws hSpace =>
    intro before rest hBefore
    have hText : before ++ ('[' :: (ws ++ [']']) ++ rest) =
        before ++ '[' :: (ws ++ ']' :: rest) := by simp
    rw [hText]
    exact takes_array hBefore (takes_front? hSpace (by decide) rest) (fun _ => ⟨rfl, rfl⟩)
      (fun hOther => absurd rfl hOther)
  | @array vs cs hElements ih =>
    intro before rest hBefore
    have hText : before ++ ('[' :: (cs ++ [']']) ++ rest) =
        before ++ '[' :: (cs ++ ']' :: rest) := by simp
    rw [hText]
    obtain ⟨c, rest', hFront, hOther, -⟩ := hElements.takes_front? (']' :: rest)
    exact takes_array hBefore hFront (fun hClose => absurd hClose hOther) (fun _ => ih rest)
  | @emptyObject ws hSpace =>
    intro before rest hBefore
    have hText : before ++ ('\x7b' :: (ws ++ ['\x7d']) ++ rest) =
        before ++ '\x7b' :: (ws ++ '\x7d' :: rest) := by simp
    rw [hText]
    exact takes_object hBefore (takes_front? hSpace (by decide) rest) (fun _ => ⟨rfl, rfl⟩)
      (fun hOther => absurd rfl hOther)
  | @object ms cs hMembers ih =>
    intro before rest hBefore
    have hText : before ++ ('\x7b' :: (cs ++ ['\x7d']) ++ rest) =
        before ++ '\x7b' :: (cs ++ '\x7d' :: rest) := by simp
    rw [hText]
    obtain ⟨c, rest', hFront, -, hOther⟩ := hMembers.takes_front? ('\x7d' :: rest)
    exact takes_object hBefore hFront (fun hClose => absurd hClose hOther) (fun _ => ih rest)
  | @element v before cs after hBefore _ hAfter ih =>
    intro rest
    refine ⟨after, hAfter, ?_⟩
    have hText : before ++ (cs ++ after) ++ rest = before ++ (cs ++ (after ++ rest)) := by simp
    rw [hText]
    exact ih before (after ++ rest) hBefore
  | @lastElement v cs _ ih =>
    intro rest
    obtain ⟨after, hAfter, hValue⟩ := ih (']' :: rest)
    rw [elements?]
    refine hValue.bind fun _ => (takes_front? hAfter (by decide) rest).bind fun _ => ?_
    rw [if_pos rfl]
    exact .lift _ _ _ rfl
  | @elements v vs cs ds _ _ ihFirst ihMore =>
    intro rest
    obtain ⟨after, hAfter, hValue⟩ := ihFirst (',' :: (ds ++ ']' :: rest))
    rw [List.append_assoc, List.cons_append, elements?]
    refine hValue.bind fun _ => (takes_front? hAfter (by decide) _).bind fun _ => ?_
    rw [if_neg (show ¬ ',' = ']' by decide), if_pos rfl]
    exact (ihMore rest).bind fun _ => .lift _ _ _ rfl
  | @member key v before form after cs hBefore hForm hAfter _ ih =>
    intro rest
    obtain ⟨behind, hBehind, hValue⟩ := ih rest
    refine ⟨behind, hBehind, ?_⟩
    have hText : before ++ '"' :: (form ++ '"' :: (after ++ ':' :: cs)) ++ rest =
        before ++ '"' :: (form ++ '"' :: (after ++ ':' :: (cs ++ rest))) := by simp
    rw [hText, member?]
    refine (takes_front? hBefore (by decide) _).bind fun _ => ?_
    rw [if_pos rfl]
    refine (takes_string? hForm _).bind fun _ => ?_
    refine (takes_front? hAfter (by decide) _).bind fun _ => ?_
    rw [if_pos rfl]
    exact hValue.bind fun _ => .lift _ _ _ (congrArg (·, v) String.ofList_toList)
  | @lastMember m cs _ ih =>
    intro rest
    obtain ⟨after, hAfter, hMember⟩ := ih ('\x7d' :: rest)
    rw [members?]
    refine hMember.bind fun _ => (takes_front? hAfter (by decide) rest).bind fun _ => ?_
    rw [if_pos rfl]
    exact .lift _ _ _ rfl
  | @members m ms cs ds _ _ ihFirst ihMore =>
    intro rest
    obtain ⟨after, hAfter, hMember⟩ := ihFirst (',' :: (ds ++ '\x7d' :: rest))
    rw [List.append_assoc, List.cons_append, members?]
    refine hMember.bind fun _ => (takes_front? hAfter (by decide) _).bind fun _ => ?_
    rw [if_neg (show ¬ ',' = '\x7d' by decide), if_pos rfl]
    exact (ihMore rest).bind fun _ => .lift _ _ _ rfl

/-- A document is read as its value, so that it has no other. -/
theorem read?_of_isDocument {v : Json} {text : String} (h : IsDocument v text) :
    read? text = some v := by
  obtain ⟨after, hAfter, hTakes⟩ := readWhole_of_spells h []
  rw [List.append_nil, List.append_nil] at hTakes
  obtain ⟨hLt, hValue⟩ := hTakes
  rw [read?, hValue]
  exact if_pos hAfter

/-! ## What is written is a document -/

theorem hexDigit_facts {n : Nat} (h : n < 16) :
    hexValue? (hexDigit n) = some n ∧ 0x20 ≤ (hexDigit n).toNat := by
  have hAll : ∀ n < 16, hexValue? (hexDigit n) = some n ∧ 0x20 ≤ (hexDigit n).toNat := by decide
  exact hAll n h

/-- A character is escaped by one of its forms, without a control character in it. -/
theorem charForm_escape (c : Char) : CharForm c (escape c) ∧ ∀ d ∈ escape c, 0x20 ≤ d.toNat := by
  have hShort {letter : Char} (h : (letter, c) ∈ shortEscapes) :
      CharForm c ['\\', letter] ∧ ∀ d ∈ ['\\', letter], 0x20 ≤ d.toNat := by
    obtain ⟨-, hLetter, -⟩ := lookup_shortEscapes h
    exact ⟨.short h, by simp [hLetter]⟩
  unfold escape
  split_ifs with hQuote hBackslash hBackspace hFeed hLine hReturn hTab hControl
  · exact hShort (by rw [hQuote]; decide)
  · exact hShort (by rw [hBackslash]; decide)
  · exact hShort (by rw [hBackspace]; decide)
  · exact hShort (by rw [hFeed]; decide)
  · exact hShort (by rw [hLine]; decide)
  · exact hShort (by rw [hReturn]; decide)
  · exact hShort (by rw [hTab]; decide)
  -- A control character without a short escape is written with its code point.
  · obtain ⟨hHigh, hHighRange⟩ := hexDigit_facts (n := c.toNat / 16) (by omega)
    obtain ⟨hLow, hLowRange⟩ := hexDigit_facts (n := c.toNat % 16) (by omega)
    have hZero : hexValue? '0' = some 0 := by decide
    have hNumber : hexNumber? '0' '0' (hexDigit (c.toNat / 16)) (hexDigit (c.toNat % 16)) =
        some c.toNat := by
      simp only [hexNumber?, hZero, hHigh, hLow]
      exact congrArg some (by omega)
    exact ⟨.code hNumber, by simp [hHighRange, hLowRange]⟩
  · exact ⟨.plain hQuote hBackslash (by omega), by simp; omega⟩

theorem textForm_flatMap_escape (text : List Char) : TextForm text (text.flatMap escape) := by
  induction text with
  | nil => exact .nil
  | cons c text ih => exact .cons (charForm_escape c).1 ih

theorem quote_eq (text rest : List Char) :
    quote text rest = '"' :: (text.flatMap escape ++ '"' :: rest) := by
  have hFold : text.foldr (fun c rest => escape c ++ rest) ('"' :: rest) =
      text.flatMap escape ++ '"' :: rest := by
    induction text with
    | nil => rfl
    | cons c text ih => rw [List.foldr_cons, ih, List.flatMap_cons, List.append_assoc]
  rw [quote, hFold]

/-- The only control characters are line feeds. -/
def NoControl (cs : List Char) : Prop := ∀ c ∈ cs, c.toNat < 0x20 → c = '\n'

theorem NoControl.append {a b : List Char} (ha : NoControl a) (hb : NoControl b) :
    NoControl (a ++ b) :=
  List.forall_mem_append.2 ⟨ha, hb⟩

theorem NoControl.cons {c : Char} {cs : List Char} (hc : 0x20 ≤ c.toNat) (h : NoControl cs) :
    NoControl (c :: cs) :=
  List.forall_mem_cons.2 ⟨fun hLt => absurd hLt (by omega), h⟩

theorem noControl_flatMap_escape (text : List Char) : NoControl (text.flatMap escape) := by
  intro d hd hLt
  obtain ⟨c, -, hEscape⟩ := List.mem_flatMap.1 hd
  have hGe := (charForm_escape c).2 d hEscape
  omega

/-- White space that a report may hold. -/
def IsGap (cs : List Char) : Prop := cs.all isSpace = true ∧ NoControl cs

theorem isGap_nil : IsGap [] := ⟨rfl, by simp [NoControl]⟩

theorem isGap_newline (depth : Nat) : IsGap (newline depth []) := by
  constructor
  · simp [newline, isSpace]
  · simp [newline, NoControl]

theorem newline_eq (depth : Nat) (rest : List Char) :
    newline depth rest = newline depth [] ++ rest := by
  simp [newline]

/-- The writer puts a form of the part of a document in front of what follows, free of control
characters other than line feeds. -/
def Writes (p : Phrase) (f : List Char → List Char) : Prop :=
  ∃ cs, Spells p cs ∧ NoControl cs ∧ ∀ rest, f rest = cs ++ rest

namespace Writes

variable {p q r : Phrase} {f g : List Char → List Char} {v : Json}

theorem congr (h : Writes p f) (hEq : ∀ rest, g rest = f rest) : Writes p g := by
  obtain ⟨cs, hSpells, hClean, hWrite⟩ := h
  exact ⟨cs, hSpells, hClean, fun rest => (hEq rest).trans (hWrite rest)⟩

/-- A production that keeps the characters. -/
theorem same (hRule : ∀ cs, Spells p cs → Spells q cs) (h : Writes p f) : Writes q f := by
  obtain ⟨cs, hSpells, hClean, hWrite⟩ := h
  exact ⟨cs, hRule cs hSpells, hClean, hWrite⟩

/-- A production with a comma between its parts. -/
theorem comma (hRule : ∀ cs ds, Spells p cs → Spells q ds → Spells r (cs ++ ',' :: ds))
    (hf : Writes p f) (hg : Writes q g) : Writes r fun rest => f (',' :: g rest) := by
  obtain ⟨cs, hSpells, hClean, hWrite⟩ := hf
  obtain ⟨ds, hSpells', hClean', hWrite'⟩ := hg
  refine ⟨cs ++ ',' :: ds, hRule cs ds hSpells hSpells', ?_, fun rest => ?_⟩
  · exact hClean.append (hClean'.cons (by decide))
  · simp only [hWrite, hWrite', List.append_assoc, List.cons_append]

/-- A production that encloses its part between two marks. -/
theorem enclosed (left right : Char) (hLeft : 0x20 ≤ left.toNat) (hRight : 0x20 ≤ right.toNat)
    (hRule : ∀ cs, Spells p cs → Spells q (left :: (cs ++ [right]))) (h : Writes p f) :
    Writes q fun rest => left :: f (right :: rest) := by
  obtain ⟨cs, hSpells, hClean, hWrite⟩ := h
  refine ⟨left :: (cs ++ [right]), hRule cs hSpells, ?_, fun rest => ?_⟩
  · exact (hClean.append (isGap_nil.2.cons hRight)).cons hLeft
  · simp [hWrite]

theorem element {before after : List Char} (hBefore : IsGap before) (h : Writes (.value v) f)
    (hAfter : IsGap after) : Writes (.element v) fun rest => before ++ f (after ++ rest) := by
  obtain ⟨cs, hSpells, hClean, hWrite⟩ := h
  refine ⟨before ++ (cs ++ after), .element hBefore.1 hSpells hAfter.1, ?_, fun rest => ?_⟩
  · exact hBefore.2.append (hClean.append hAfter.2)
  · simp [hWrite]

theorem member {before : List Char} (hBefore : IsGap before) (key : String)
    (h : Writes (.element v) f) :
    Writes (.member (key, v)) fun rest => before ++ quote key.toList (':' :: f rest) := by
  obtain ⟨cs, hSpells, hClean, hWrite⟩ := h
  have hColon : NoControl (':' :: cs) := hClean.cons (by decide)
  refine ⟨before ++ '"' :: (key.toList.flatMap escape ++ '"' :: ([] ++ ':' :: cs)),
    .member hBefore.1 (textForm_flatMap_escape key.toList) rfl hSpells, ?_, fun rest => ?_⟩
  · exact hBefore.2.append
      (((noControl_flatMap_escape key.toList).append (hColon.cons (by decide))).cons (by decide))
  · simp [quote_eq, hWrite]

end Writes

/-- A list is written line by line, with a comma at the end of each line but the last. It is stated
once for the elements of an array and the members of an object. -/
theorem writes_lines {α : Type} {one : α → Phrase} {many : List α → Phrase}
    {line : α → List Char → List Char} {more : List α → List Char → List Char} {depth : Nat}
    (hLast : ∀ a cs, Spells (one a) cs → Spells (many [a]) cs)
    (hComma : ∀ a as cs ds, Spells (one a) cs → Spells (many as) ds →
      Spells (many (a :: as)) (cs ++ ',' :: ds))
    (hNil : ∀ rest, more [] rest = rest)
    (hCons : ∀ a as rest, more (a :: as) rest = ',' :: newline depth (line a (more as rest)))
    (outer : Nat) (a : α) (as : List α)
    (hLine : ∀ b ∈ a :: as, ∀ after, IsGap after →
      Writes (one b) fun rest => newline depth (line b (after ++ rest))) :
    Writes (many (a :: as)) fun rest =>
      newline depth (line a (more as (newline outer rest))) := by
  induction as generalizing a with
  | nil =>
    have hOne := hLine a List.mem_cons_self _ (isGap_newline outer)
    refine (hOne.same (hLast a)).congr fun rest => ?_
    rw [hNil, newline_eq outer rest]
  | cons b as ih =>
    have hOne := hLine a List.mem_cons_self [] isGap_nil
    have hMore := ih b fun c hc => hLine c (List.mem_cons_of_mem a hc)
    refine (Writes.comma (hComma a (b :: as)) hOne hMore).congr fun rest => ?_
    rw [hCons, List.nil_append]

theorem writes_elements {depth : Nat} (outer : Nat) (v : Json) (vs : List Json)
    (h : ∀ u ∈ v :: vs, Writes (.value u) (write depth u)) :
    Writes (.elements (v :: vs)) fun rest =>
      newline depth (write depth v (writeItems depth vs (newline outer rest))) := by
  refine writes_lines (fun _ _ => .lastElement) (fun _ _ _ _ => .elements) (fun _ => ?_)
    (fun _ _ _ => ?_) outer v vs fun u hu after hAfter => ?_
  · rw [writeItems]
  · rw [writeItems]
  · refine ((h u hu).element (isGap_newline depth) hAfter).congr fun rest => ?_
    rw [newline_eq]

theorem writes_members {depth : Nat} (outer : Nat) (m : String × Json) (ms : List (String × Json))
    (h : ∀ l ∈ m :: ms, Writes (.value l.2) (write depth l.2)) :
    Writes (.members (m :: ms)) fun rest =>
      newline depth (writeMember depth m (writeMembers depth ms (newline outer rest))) := by
  have hSpace : IsGap [' '] := ⟨rfl, isGap_nil.2.cons (by decide)⟩
  refine writes_lines (fun _ _ => .lastMember) (fun _ _ _ _ => .members) (fun _ => ?_)
    (fun _ _ _ => ?_) outer m ms fun l hl after hAfter => ?_
  · rw [writeMembers]
  · rw [writeMembers]
  · obtain ⟨key, value⟩ := l
    have hValue := (h (key, value) hl).element hSpace hAfter
    refine (hValue.member (isGap_newline depth) key).congr fun rest => ?_
    rw [newline_eq, writeMember]
    rfl

/-- A value is written in a form that the grammar has, at any depth. -/
theorem writes_value (depth : Nat) (v : Json) : Writes (.value v) (write depth v) := by
  match v with
  | .string text =>
    refine ⟨_, .string (textForm_flatMap_escape text.toList), ?_, fun rest => ?_⟩
    · exact ((noControl_flatMap_escape text.toList).append
        (isGap_nil.2.cons (by decide))).cons (by decide)
    · rw [write, quote_eq]
      simp
  | .array [] =>
    exact ⟨_, @Spells.emptyArray [] rfl, by simp [NoControl], fun rest => by rw [write]; rfl⟩
  | .array (item :: items) =>
    have hItems := writes_elements depth item items fun u hu => writes_value (depth + 1) u
    refine (hItems.enclosed '[' ']' (by decide) (by decide) fun _ => .array).congr fun rest => ?_
    rw [write]
  | .object [] =>
    exact ⟨_, @Spells.emptyObject [] rfl, by simp [NoControl], fun rest => by rw [write]; rfl⟩
  | .object (m :: ms) =>
    have hMembers := writes_members depth m ms fun l hl => writes_value (depth + 1) l.2
    refine (hMembers.enclosed '\x7b' '\x7d' (by decide) (by decide)
      fun _ => .object).congr fun rest => ?_
    rw [write]
termination_by v
decreasing_by
  · have hSize := List.sizeOf_lt_of_mem hu
    simp only [array.sizeOf_spec]
    omega
  · have hSize := List.sizeOf_lt_of_mem hl
    have hValue : sizeOf l = 1 + sizeOf l.1 + sizeOf l.2 := rfl
    simp only [object.sizeOf_spec]
    omega

/-- The document of a value is well formed, and the only control characters in it are line feeds. -/
theorem isDocument_pretty (v : Json) : IsDocument v v.pretty ∧ NoControl v.pretty.toList := by
  obtain ⟨cs, hSpells, hClean, hWrite⟩ := writes_value 0 v
  have hText : v.pretty.toList = cs := by
    rw [pretty, String.toList_ofList, hWrite, List.append_nil]
  rw [IsDocument, hText]
  have hElement : Spells (.element v) ([] ++ (cs ++ [])) := .element rfl hSpells rfl
  exact ⟨by simpa using hElement, hClean⟩

end Json

end ReversePolish
