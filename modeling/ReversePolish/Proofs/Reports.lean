import ReversePolish.Compilation
import ReversePolish.Proofs.Documents

/-!
# Reading reports

A report is read back into what it was made of: the classes and texts of the tokens, the outline and
the reverse Polish text. Offsets and warnings are not in it.

* `Compilation.Contents`, `Compilation.contents`: what a report holds of a compilation.
* `Compilation.Contents.ofReport?`: the contents of a report, read from its text.
* `Outline.ofJson?_toJson`, `Compilation.Contents.ofJson?_toJson`: the JSON value of an outline and
  of a compilation give them back.
* `Compilation.report_lossless`: every report is one document that reads back as its contents.
-/

namespace ReversePolish

/-! ## Tokens -/

/-- The class with the name. -/
def Token.Kind.ofName? : String → Option Token.Kind
  | "NUMBER" => some .number
  | "OPERATOR" => some .operator
  | "PAREN" => some .paren
  | _ => none

theorem Token.Kind.ofName?_name (kind : Token.Kind) : ofName? kind.name = some kind := by
  cases kind <;> rfl

/-- The class and the text of a token in a report. -/
def Token.ofJson? : Json → Option (Token.Kind × String)
  | .object [("kind", .string kind), ("text", .string text)] =>
    (Token.Kind.ofName? kind).map (·, text)
  | _ => none

theorem Token.ofJson?_toJson (t : Token) : Token.ofJson? t.toJson = some (t.kind, t.text) := by
  simp only [Token.toJson, Token.ofJson?, Token.Kind.ofName?_name, Option.map_some]

/-! ## Outlines -/

mutual

/-- The outline in a report. -/
def Outline.ofJson? : Json → Option Outline
  | .object [("label", .string label), ("children", .array children)] =>
    (Outline.forestOfJson? children).map (⟨label, ·⟩)
  | _ => none

/-- The children of an outline in a report. -/
def Outline.forestOfJson? : List Json → Option (List Outline)
  | [] => some []
  | v :: vs => do return (← Outline.ofJson? v) :: (← Outline.forestOfJson? vs)

end

mutual

/-- An outline is read back, with the numbers of children at every level. -/
theorem Outline.ofJson?_toJson : ∀ t : Outline, Outline.ofJson? t.toJson = some t
  | ⟨label, children⟩ => by
    rw [Outline.toJson, Outline.ofJson?, Outline.forestOfJson?_forestToJson children]
    rfl

theorem Outline.forestOfJson?_forestToJson :
    ∀ ts : List Outline, Outline.forestOfJson? (Outline.forestToJson ts) = some ts
  | [] => by rw [Outline.forestToJson, Outline.forestOfJson?]
  | t :: ts => by
    rw [Outline.forestToJson, Outline.forestOfJson?, Outline.ofJson?_toJson t,
      Outline.forestOfJson?_forestToJson ts]
    rfl

end

/-! ## Compilations -/

namespace Compilation

/-- What a report holds of a compilation. -/
@[ext]
structure Contents where
  tokens : List (Token.Kind × String)
  tree : Outline
  rpn : String

/-- A compilation without its offsets and warnings. -/
def contents (c : Compilation) : Contents :=
  ⟨c.tokens.map fun t => (t.kind, t.text), c.tree, c.rpn⟩

namespace Contents

/-- The contents in the JSON value of a compilation. -/
def ofJson? : Json → Option Contents
  | .object [("tokens", .array tokens), ("tree", tree), ("postfix", .string rpn)] => do
    return ⟨← tokens.mapM Token.ofJson?, ← Outline.ofJson? tree, rpn⟩
  | _ => none

/-- The contents of a report. -/
def ofReport? (report : String) : Option Contents := (Json.read? report).bind ofJson?

theorem ofJson?_toJson (c : Compilation) : ofJson? c.toJson = some c.contents := by
  have hTokens : (c.tokens.map Token.toJson).mapM Token.ofJson? =
      some (c.tokens.map fun t => (t.kind, t.text)) := by
    induction c.tokens with
    | nil => rfl
    | cons t ts ih =>
      rw [List.map_cons, List.mapM_cons, Token.ofJson?_toJson, ih]
      rfl
  rw [toJson, ofJson?, hTokens, Outline.ofJson?_toJson]
  rfl

theorem ofReport?_report (c : Compilation) : ofReport? c.report = some c.contents := by
  rw [ofReport?, report, Json.read?_of_isDocument (Json.isDocument_pretty c.toJson).1]
  exact ofJson?_toJson c

end Contents

theorem contents_eq_iff (c c' : Compilation) :
    c.contents = c'.contents ↔
      c.tokens.map (fun t => (t.kind, t.text)) = c'.tokens.map (fun t => (t.kind, t.text)) ∧
        c.tree = c'.tree ∧ c.rpn = c'.rpn :=
  Contents.ext_iff

/-- Of a token, only the class and the text go into the value. -/
theorem toJson_of_contents_eq {c c' : Compilation} (h : c.contents = c'.contents) :
    c.toJson = c'.toJson := by
  obtain ⟨hTokens, hTree, hRpn⟩ := (contents_eq_iff c c').1 h
  have hMap (ts : List Token) : ts.map Token.toJson =
      (ts.map fun t => (t.kind, t.text)).map fun token =>
        .object [("kind", .string token.1.name), ("text", .string token.2)] := by
    rw [List.map_map]
    rfl
  rw [toJson, toJson, hMap, hMap, hTokens, hTree, hRpn]

/-- **A report loses nothing that it shows.** It is a document of one value, its line feeds are the
only control characters that stand in it as they are, and it reads back as the classes and texts of
the tokens, the outline and the reverse Polish text. So two compilations have one report exactly if
they agree in these, whatever their offsets and warnings. -/
theorem report_lossless (c : Compilation) :
    (∀ v, Json.IsDocument v c.report ↔ v = c.toJson) ∧
      (∀ ch ∈ c.report.toList, ch.toNat < 0x20 → ch = '\n') ∧
      Contents.ofReport? c.report =
        some ⟨c.tokens.map fun t => (t.kind, t.text), c.tree, c.rpn⟩ ∧
      ∀ c' : Compilation, c.report = c'.report ↔
        c.tokens.map (fun t => (t.kind, t.text)) = c'.tokens.map (fun t => (t.kind, t.text)) ∧
          c.tree = c'.tree ∧ c.rpn = c'.rpn := by
  obtain ⟨hDocument, hClean⟩ := Json.isDocument_pretty c.toJson
  refine ⟨fun v => ⟨fun h => ?_, fun h => ?_⟩, hClean, Contents.ofReport?_report c, fun c' => ?_⟩
  -- Both values are what the reader finds.
  · have hRead := (Json.read?_of_isDocument h).symm.trans (Json.read?_of_isDocument hDocument)
    exact Option.some.inj hRead
  · rw [h]
    exact hDocument
  · rw [← contents_eq_iff]
    constructor
    · intro h
      have hBack := Contents.ofReport?_report c
      rw [h, Contents.ofReport?_report c'] at hBack
      exact (Option.some.inj hBack).symm
    · intro h
      rw [report, report, toJson_of_contents_eq h]

/-- Texts with quotes, backslashes and control characters, and labels with two and three
children. -/
def awkward : Compilation :=
  ⟨[⟨.number, "\"\\/\x00\n", 7⟩, ⟨.paren, "", 4294967295⟩], [],
    ⟨"\x1f", [⟨"é", []⟩, ⟨"]", [⟨"\x7d", []⟩, ⟨"", []⟩, ⟨"\t", []⟩]⟩]⟩, "\x7f\r"⟩

/-- Other offsets and a warning leave the report as it is. -/
theorem report_lossless_awkward :
    awkward.report =
      Compilation.report { awkward with
        tokens := [⟨.number, "\"\\/\x00\n", 0⟩, ⟨.paren, "", 0⟩], warnings := [⟨'#', 3⟩] } :=
  ((report_lossless awkward).2.2.2 _).2 ⟨rfl, rfl, rfl⟩

end Compilation

end ReversePolish
