import SystemCalls.Xml
import Mathlib.Data.Char
import Mathlib.Data.Finset.Basic
import Mathlib.Data.Rat.Defs

/-!
# The drawing primitives of gen_figures

Each primitive of `gen_figures.py` builds a piece of SVG text from its arguments, and `esc`
adds its argument to `USED_CHARS` on the way. The arguments of a call are a structure with
Python's default values. Labels are any strings; colours, dashes, path data and anchors are
strings that fit in an attribute value.
-/

namespace SystemCalls.GenFigures

open Xml

/-- Python's numbers, as far as the figures use them. The text of a number has digits, a sign,
a point and letters in it, and nothing that markup cares about. -/
class Number (N : Type*) extends Add N, Sub N, Mul N, Div N, Min N where
  lit : ℚ → N
  str : N → Str
  clean_str : ∀ x, Clean (str x)

/-- A string that can stand between double quotes. -/
structure Value where
  text : Str
  clean : Clean text

def GREY : Value := ⟨"#6B7B94".toList, by decide⟩
def BLUE : Value := ⟨"#3E7CC0".toList, by decide⟩
def TEAL : Value := ⟨"#1F918C".toList, by decide⟩
def AMBER : Value := ⟨"#D9922B".toList, by decide⟩
def RED : Value := ⟨"#D65A5F".toList, by decide⟩
def WHITE : Value := ⟨"#FFFFFF".toList, by decide⟩
def LIGHT : Value := ⟨"#9AA0B4".toList, by decide⟩

/-- `anchor="middle"` -/
def middle : Value := ⟨"middle".toList, by decide⟩

/-- `fill="none"` -/
def unfilled : Value := ⟨"none".toList, by decide⟩

def FONT : Value :=
  ⟨"'Virgil','Segoe Print','Bradley Hand','Comic Sans MS',".toList ++
    "'Segoe UI',system-ui,-apple-system,sans-serif".toList, by decide⟩

def MONO : Value :=
  ⟨"'Virgil','SFMono-Regular',ui-monospace,'JetBrains Mono',Consolas,".toList ++
    "monospace".toList, by decide⟩

/-- `s.replace(c, new)` for a single character. -/
def replace (c : Char) (new s : Str) : Str :=
  s.flatMap fun x => if x = c then new else [x]

/-- The text that a call returns, and what it has added to `USED_CHARS`. -/
structure Drawn where
  text : Str
  used : Finset Char

namespace Drawn

/-- A text that is put together without `esc`. -/
@[coe] def plain (s : Str) : Drawn := ⟨s, ∅⟩

instance : Coe Str Drawn := ⟨plain⟩

instance : Append Drawn := ⟨fun d e => ⟨d.text ++ e.text, d.used ∪ e.used⟩⟩

/-- `"".join(l)` -/
def join (l : List Drawn) : Drawn := l.foldr (· ++ ·) (plain [])

variable {d e : Drawn} {s : Str} {l : List Drawn} {c : Char}

@[simp] theorem text_plain : (plain s).text = s := rfl

@[simp] theorem used_plain : (plain s).used = ∅ := rfl

@[simp] theorem text_append : (d ++ e).text = d.text ++ e.text := rfl

@[simp] theorem used_append : (d ++ e).used = d.used ∪ e.used := rfl

@[simp] theorem text_join : (join l).text = l.flatMap text := by
  induction l with
  | nil => rfl
  | cons d l ih => exact congrArg (d.text ++ ·) ih

@[simp] theorem mem_used_join : c ∈ (join l).used ↔ ∃ d ∈ l, c ∈ d.used := by
  induction l with
  | nil => simp [join]
  | cons d l ih =>
    change c ∈ d.used ∪ (join l).used ↔ _
    rw [Finset.mem_union, ih, List.exists_mem_cons_iff]

end Drawn

/-- `USED_CHARS.update(str(s))` comes first. -/
def esc (s : Str) : Drawn where
  text := replace '>' "&gt;".toList (replace '<' "&lt;".toList (replace '&' "&amp;".toList s))
  used := s.toFinset

/-- `if s:`, which takes `None` and the empty string for false. -/
def truthy : Option Value → Option Value
  | none => none
  | some v => if v.text = [] then none else some v

variable {N : Type*} [Number N]

def RULE : N := Number.lit (3 / 2)

/-- The pairs of name and colour that `defs` loops over. -/
def marks : List (Str × Value) :=
  [("g".toList, GREY), ("p".toList, BLUE), ("t".toList, TEAL), ("r".toList, RED),
    ("a".toList, AMBER), ("l".toList, LIGHT)]

def marker (mark : Str × Value) : Str :=
  "<marker id=\"ah-".toList ++ mark.1 ++
    "\" viewBox=\"0 0 10 10\" refX=\"8\" refY=\"5\" ".toList ++
    "markerWidth=\"4.5\" markerHeight=\"4.5\" ".toList ++ "orient=\"auto-start-reverse\">".toList ++
    "<path d=\"M0 1L9 5L0 9z\" fill=\"".toList ++ mark.2.text ++ "\"/></marker>".toList

def defs : Str := "<defs>".toList ++ marks.flatMap marker ++ "</defs>".toList

structure RRect (N : Type*) [Number N] where
  x : N
  y : N
  w : N
  h : N
  fill : Value
  rx : N := Number.lit 9
  stroke : Option Value := none
  sw : N := RULE
  dash : Option Value := none
  opacity : Option N := none

open Number

/-- The attributes that `if stroke:` adds in several primitives. -/
def strokeText (stroke : Option Value) (sw : N) : Str :=
  match truthy stroke with
  | some v => " stroke=\"".toList ++ v.text ++ "\" stroke-width=\"".toList ++ str sw ++ "\"".toList
  | none => []

def dashText (dash : Option Value) : Str :=
  match truthy dash with
  | some v => " stroke-dasharray=\"".toList ++ v.text ++ "\"".toList
  | none => []

def rrect (a : RRect N) : Str :=
  "<rect x=\"".toList ++ str a.x ++ "\" y=\"".toList ++ str a.y ++ "\" width=\"".toList ++
    str a.w ++ "\" height=\"".toList ++ str a.h ++ "\" rx=\"".toList ++ str a.rx ++
    "\" ry=\"".toList ++ str a.rx ++ "\" ".toList ++ "fill=\"".toList ++ a.fill.text ++
    "\"".toList ++ strokeText a.stroke a.sw ++ dashText a.dash ++
    (match a.opacity with
      | some o => " opacity=\"".toList ++ str o ++ "\"".toList
      | none => []) ++
    "/>".toList

/-- The `<tspan>` of line `i`. -/
def tspan (x lh : N) (i : ℕ) (ln : Str) : Drawn :=
  "<tspan x=\"".toList ++ str x ++ "\" dy=\"".toList ++ str (if i = 0 then lit 0 else lh) ++
    "\">".toList ++ esc ln ++ "</tspan>".toList

def tspanLines (x cy : N) (lines : List Str) (fill : Value) (size weight lh : N) (mono : Bool) :
    Drawn :=
  let fam := if mono then MONO else FONT
  let y0 := cy - lit (lines.length - 1) * lh / lit 2
  "<text x=\"".toList ++ str x ++ "\" y=\"".toList ++ str y0 ++ "\" fill=\"".toList ++
    fill.text ++ "\" font-family=\"".toList ++ fam.text ++ "\" ".toList ++
    "font-size=\"".toList ++ str size ++ "\" font-weight=\"".toList ++ str weight ++
    "\" text-anchor=\"middle\" ".toList ++ "dominant-baseline=\"central\">".toList ++
    Drawn.join (lines.zipIdx.map fun p => tspan x lh p.2 p.1) ++ "</text>".toList

/-- The `lines` argument: one string, or a list of them. -/
inductive Lines
  | str (s : Str)
  | list (l : List Str)

structure Box (N : Type*) [Number N] where
  x : N
  y : N
  w : N
  h : N
  lines : Lines
  fill : Value := GREY
  tcol : Value := WHITE
  size : N := Number.lit 13
  weight : N := Number.lit 600
  rx : N := Number.lit 9
  lh : N := Number.lit 16
  stroke : Option Value := none
  sw : N := RULE
  dash : Option Value := none
  mono : Bool := false

/-- A single string is split at its newlines. -/
def box (a : Box N) : Drawn :=
  let lines := match a.lines with
    | .str s => s.splitOn '\n'
    | .list l => l
  rrect { x := a.x, y := a.y, w := a.w, h := a.h, fill := a.fill, rx := a.rx, stroke := a.stroke,
          sw := a.sw, dash := a.dash } ++
    tspanLines (a.x + a.w / lit 2) (a.y + a.h / lit 2) lines a.tcol a.size a.weight a.lh a.mono

structure OBox (N : Type*) [Number N] where
  x : N
  y : N
  w : N
  h : N
  lines : Lines
  stroke : Option Value := some GREY
  tcol : Value := GREY
  size : N := Number.lit 13
  weight : N := Number.lit 600
  rx : N := Number.lit 9
  lh : N := Number.lit 16
  sw : N := RULE
  dash : Option Value := none
  fill : Value := unfilled
  mono : Bool := false

/-- A single string is one line. -/
def obox (a : OBox N) : Drawn :=
  let lines := match a.lines with
    | .str s => [s]
    | .list l => l
  rrect { x := a.x, y := a.y, w := a.w, h := a.h, fill := a.fill, rx := a.rx, stroke := a.stroke,
          sw := a.sw, dash := a.dash } ++
    tspanLines (a.x + a.w / lit 2) (a.y + a.h / lit 2) lines a.tcol a.size a.weight a.lh a.mono

structure Text (N : Type*) [Number N] where
  x : N
  y : N
  s : Str
  fill : Value := GREY
  size : N := Number.lit 13
  weight : N := Number.lit 600
  anchor : Value := middle
  mono : Bool := false

def text (a : Text N) : Drawn :=
  let fam := if a.mono then MONO else FONT
  "<text x=\"".toList ++ str a.x ++ "\" y=\"".toList ++ str a.y ++ "\" fill=\"".toList ++
    a.fill.text ++ "\" font-family=\"".toList ++ fam.text ++ "\" ".toList ++
    "font-size=\"".toList ++ str a.size ++ "\" font-weight=\"".toList ++ str a.weight ++
    "\" text-anchor=\"".toList ++ a.anchor.text ++ "\"".toList ++
    " dominant-baseline=\"central\">".toList ++ esc a.s ++ "</text>".toList

structure Line (N : Type*) [Number N] where
  x1 : N
  y1 : N
  x2 : N
  y2 : N
  col : Value := GREY
  sw : N := RULE
  dash : Option Value := none

def line (a : Line N) : Str :=
  "<line x1=\"".toList ++ str a.x1 ++ "\" y1=\"".toList ++ str a.y1 ++ "\" x2=\"".toList ++
    str a.x2 ++ "\" y2=\"".toList ++ str a.y2 ++ "\" stroke=\"".toList ++ a.col.text ++
    "\" ".toList ++ "stroke-width=\"".toList ++ str a.sw ++ "\"".toList ++ dashText a.dash ++
    "/>".toList

/-- The dictionary of `_mk` and its default. -/
def mk (col : Value) : Str :=
  if col.text = GREY.text then "g".toList
  else if col.text = BLUE.text then "p".toList
  else if col.text = TEAL.text then "t".toList
  else if col.text = RED.text then "r".toList
  else if col.text = AMBER.text then "a".toList
  else if col.text = LIGHT.text then "l".toList
  else "g".toList

def arrow (a : Line N) : Str :=
  "<line x1=\"".toList ++ str a.x1 ++ "\" y1=\"".toList ++ str a.y1 ++ "\" x2=\"".toList ++
    str a.x2 ++ "\" y2=\"".toList ++ str a.y2 ++ "\" stroke=\"".toList ++ a.col.text ++
    "\" ".toList ++ "stroke-width=\"".toList ++ str a.sw ++ "\" marker-end=\"url(#ah-".toList ++
    mk a.col ++ ")\"".toList ++ dashText a.dash ++ "/>".toList

structure Path (N : Type*) [Number N] where
  d : Value
  col : Value := GREY
  sw : N := RULE
  dash : Option Value := none
  arrowEnd : Bool := false
  fill : Value := unfilled

/-- `m` of `path`: the head of an arrow. -/
def markerText (arrowEnd : Bool) (col : Value) : Str :=
  if arrowEnd then " marker-end=\"url(#ah-".toList ++ mk col ++ ")\"".toList else []

def path (a : Path N) : Str :=
  "<path d=\"".toList ++ a.d.text ++ "\" fill=\"".toList ++ a.fill.text ++
    "\" stroke=\"".toList ++ a.col.text ++ "\" stroke-width=\"".toList ++ str a.sw ++
    "\"".toList ++ dashText a.dash ++ markerText a.arrowEnd a.col ++ "/>".toList

structure Circle (N : Type*) [Number N] where
  cx : N
  cy : N
  r : N
  fill : Value
  stroke : Option Value := none
  sw : N := RULE

def circle (a : Circle N) : Str :=
  "<circle cx=\"".toList ++ str a.cx ++ "\" cy=\"".toList ++ str a.cy ++ "\" r=\"".toList ++
    str a.r ++ "\" fill=\"".toList ++ a.fill.text ++ "\"".toList ++ strokeText a.stroke a.sw ++
    "/>".toList

structure Cylinder (N : Type*) [Number N] where
  x : N
  y : N
  w : N
  h : N
  fill : Value := GREY
  tcol : Value := WHITE
  lines : Option Lines := none
  size : N := Number.lit 12
  stroke : Option Value := none
  sw : N := RULE

/-- `enumerate(lines)` goes through the characters of a single string. -/
def Lines.items : Lines → List Str
  | .str s => s.map fun c => [c]
  | .list l => l

/-- The `d` of the body. -/
def cylinderBody (x y w h ry : N) : Str :=
  "M".toList ++ str x ++ " ".toList ++ str (y + ry) ++ " A".toList ++ str (w / lit 2) ++
    " ".toList ++ str ry ++ " 0 0 0 ".toList ++ str (x + w) ++ " ".toList ++ str (y + ry) ++
    " ".toList ++ "L".toList ++ str (x + w) ++ " ".toList ++ str (y + h - ry) ++ " A".toList ++
    str (w / lit 2) ++ " ".toList ++ str ry ++ " 0 0 1 ".toList ++ str x ++ " ".toList ++
    str (y + h - ry) ++ " Z".toList

def cylinder (a : Cylinder N) : Drawn :=
  let ry := min (a.h * lit (16 / 100)) (lit 14)
  let st := strokeText a.stroke a.sw
  let body := "<path d=\"".toList ++ cylinderBody a.x a.y a.w a.h ry ++ "\" ".toList ++
    "fill=\"".toList ++ a.fill.text ++ "\"".toList ++ st ++ "/>".toList
  let top := "<ellipse cx=\"".toList ++ str (a.x + a.w / lit 2) ++ "\" cy=\"".toList ++
    str (a.y + ry) ++ "\" rx=\"".toList ++ str (a.w / lit 2) ++ "\" ry=\"".toList ++ str ry ++
    "\" ".toList ++ "fill=\"".toList ++ a.fill.text ++ "\"".toList ++ st ++ "/>".toList
  let items := (a.lines.map Lines.items).getD []
  let t : Drawn := if items = [] then ([] : Str) else
    tspanLines (a.x + a.w / lit 2) (a.y + a.h / lit 2 + ry / lit 2) items a.tcol a.size (lit 600)
      (lit 15) false
  body ++ top ++ t

def dashBoundary (x1 y x2 : N) (label : Option Str) : Drawn :=
  let dash : Value := ⟨"7 5".toList, by decide⟩
  line { x1, y1 := y, x2, y2 := y, col := AMBER, sw := lit (14 / 10), dash := some dash } ++
    line { x1, y1 := y + lit 4, x2, y2 := y + lit 4, col := AMBER, sw := lit (14 / 10),
           dash := some dash } ++
    (match label with
      | none | some [] => ([] : Str)
      | some l => text { x := (x1 + x2) / lit 2, y := y - lit 10, s := l, fill := AMBER,
                         size := lit 11, weight := lit 700 })

/-- A call of one of the primitives. -/
inductive Call (N : Type*) [Number N]
  | rrect (a : RRect N)
  | box (a : Box N)
  | obox (a : OBox N)
  | text (a : Text N)
  | line (a : Line N)
  | arrow (a : Line N)
  | path (a : Path N)
  | circle (a : Circle N)
  | cylinder (a : Cylinder N)
  | dashBoundary (x1 y x2 : N) (label : Option Str)

def Call.draw : Call N → Drawn
  | .rrect a => GenFigures.rrect a
  | .box a => GenFigures.box a
  | .obox a => GenFigures.obox a
  | .text a => GenFigures.text a
  | .line a => GenFigures.line a
  | .arrow a => GenFigures.arrow a
  | .path a => GenFigures.path a
  | .circle a => GenFigures.circle a
  | .cylinder a => GenFigures.cylinder a
  | .dashBoundary x1 y x2 label => GenFigures.dashBoundary x1 y x2 label

/-- The label text among the arguments of a call, in order. -/
def Call.labels : Call N → List Str
  | .rrect _ | .line _ | .arrow _ | .path _ | .circle _ => []
  | .box a =>
    match a.lines with
    | .str s => s.splitOn '\n'
    | .list l => l
  | .obox a =>
    match a.lines with
    | .str s => [s]
    | .list l => l
  | .text a => [a.s]
  | .cylinder a => (a.lines.map Lines.items).getD []
  | .dashBoundary _ _ _ label =>
    match label with
    | none | some [] => []
    | some l => [l]

/-- The characters of base64. -/
def isBase64 (c : Char) : Bool := c.isAlphanum || c == '+' || c == '/' || c == '='

/-- What `build_font_style` returns: nothing when there is no font file, or a style sheet with
the font in base64. -/
inductive FontStyle
  | none
  | embedded (b64 : Str) (h : ∀ c ∈ b64, isBase64 c)

/-- `FONT_STYLE`, which is empty in the first pass too. -/
def FontStyle.text : FontStyle → Str
  | none => []
  | embedded b64 _ =>
    "<style>@font-face\x7bfont-family:\"Virgil\";font-style:normal;".toList ++
      "font-weight:400 700;src:url(\"data:font/woff2;base64,".toList ++ b64 ++
      "\") format(\"woff2\");\x7d</style>".toList

/-- `t` of `svg`. -/
def titleText (title : Str) : Drawn :=
  if title = [] then ([] : Str) else "<title>".toList ++ esc title ++ "</title>".toList

def svg (style : FontStyle) (w h : N) (body : Drawn) (title : Str) : Drawn :=
  "<?xml version=\"1.0\" encoding=\"UTF-8\"?>\n".toList ++
    "<svg xmlns=\"http://www.w3.org/2000/svg\" viewBox=\"0 0 ".toList ++ str w ++ " ".toList ++
    str h ++ "\" ".toList ++ "width=\"".toList ++ str w ++ "\" height=\"".toList ++ str h ++
    "\" font-family=\"".toList ++ FONT.text ++ "\">".toList ++ titleText title ++
    style.text ++ defs ++ body ++ "</svg>\n".toList

end SystemCalls.GenFigures
