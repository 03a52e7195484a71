import SystemCalls.GenFigures.Escape
import Mathlib.Algebra.Order.Ring.Rat

/-!
# Figures are well-formed

Whatever the labels, `svg` returns one well-nested element. Each primitive is shown to be the
text of a tree of tags; `esc` makes its argument character data. What a reader sees of the
figure is its title and its labels.
-/

namespace SystemCalls.GenFigures

open Xml Number

theorem written_esc {P : Tag → Prop} (s : Str) : Written P (esc s).text s := by
  have h : Written P (esc s).text (decode (esc s).text) := (charData_esc s).written
  rwa [decode_esc] at h

/-! ### Tags -/

/-- The text of a number as an attribute value. -/
def num {N : Type*} [Number N] (x : N) : Value := ⟨str x, clean_str x⟩

@[simp] theorem num_text {N : Type*} [Number N] (x : N) : (num x).text = str x := rfl

def attr (name : String) (v : Value) (h : IsName name.toList := by decide) : Attr :=
  ⟨name.toList, v.text, h, v.clean⟩

/-- A reference to a marker names one of the marks. -/
def Points (a : Attr) : Prop :=
  a.name = "marker-end".toList → ∃ m ∈ marks, a.value = "url(#ah-".toList ++ m.1 ++ ")".toList

def Refers (t : Tag) : Prop := ∀ a ∈ t.attrs, Points a

variable {N : Type*} [Number N]

def strokeAttrs (stroke : Option Value) (sw : N) : List Attr :=
  match truthy stroke with
  | some v => [attr "stroke" v, attr "stroke-width" (num sw)]
  | none => []

def dashAttrs (dash : Option Value) : List Attr :=
  match truthy dash with
  | some v => [attr "stroke-dasharray" v]
  | none => []

@[simp] theorem render_attr (name : String) (v : Value) (h : IsName name.toList) :
    (attr name v h).render =
      " ".toList ++ name.toList ++ "=\"".toList ++ v.text ++ "\"".toList := rfl

@[simp] theorem render_strokeAttrs (stroke : Option Value) (sw : N) :
    (strokeAttrs stroke sw).flatMap Attr.render = strokeText stroke sw := by
  unfold strokeAttrs strokeText
  cases truthy stroke <;> simp

@[simp] theorem render_dashAttrs (dash : Option Value) :
    (dashAttrs dash).flatMap Attr.render = dashText dash := by
  unfold dashAttrs dashText
  cases truthy dash <;> simp

@[simp] theorem points_attr {name : String} (hne : name ≠ "marker-end") (v : Value)
    (h : IsName name.toList) : Points (attr name v h) := by
  intro he
  exact (hne (String.toList_inj.mp he)).elim

theorem points_strokeAttrs (stroke : Option Value) (sw : N) :
    ∀ a ∈ strokeAttrs stroke sw, Points a := by
  unfold strokeAttrs
  cases truthy stroke <;> simp

theorem points_dashAttrs (dash : Option Value) : ∀ a ∈ dashAttrs dash, Points a := by
  unfold dashAttrs
  cases truthy dash <;> simp

/-- A self-closing tag shows nothing. -/
theorem written_empty {s : Str} (t : Tag) (ht : Refers t)
    (hs : s = "<".toList ++ t.render ++ "/>".toList) : Written Refers s [] := by
  rw [hs]
  exact .empty ht

/-- An element around `body` shows what `body` does, or nothing for a style sheet. -/
theorem written_element {s body out : Str} (t : Tag) (ht : Refers t) (hb : Written Refers body out)
    (hs : s = "<".toList ++ t.render ++ ">".toList ++ body ++ "</".toList ++ t.name ++
      ">".toList) : Written Refers s (if t.name = styleName then [] else out) := by
  rw [hs]
  exact .element ht hb

/-! ### Primitives -/

def rectTag (a : RRect N) : Tag where
  name := "rect".toList
  attrs := [attr "x" (num a.x), attr "y" (num a.y), attr "width" (num a.w),
    attr "height" (num a.h), attr "rx" (num a.rx), attr "ry" (num a.rx), attr "fill" a.fill] ++
    strokeAttrs a.stroke a.sw ++ dashAttrs a.dash ++
    a.opacity.toList.map fun o => attr "opacity" (num o)
  isName := by decide

theorem written_rrect (a : RRect N) : Written Refers (rrect a) [] := by
  refine written_empty (rectTag a) ?_ ?_
  · unfold Refers rectTag
    simpa [or_imp, forall_and] using
      ⟨points_strokeAttrs a.stroke a.sw, points_dashAttrs a.dash⟩
  · unfold rrect rectTag
    cases a.opacity <;> simp [Tag.render]

def tspanTag (x lh : N) (i : ℕ) : Tag where
  name := "tspan".toList
  attrs := [attr "x" (num x), attr "dy" (num (if i = 0 then lit 0 else lh))]
  isName := by decide

theorem written_tspan (x lh : N) (i : ℕ) (ln : Str) :
    Written Refers (tspan x lh i ln).text ln := by
  refine written_element (tspanTag x lh i) ?_ (written_esc ln) ?_
  · unfold Refers tspanTag
    simp
  · unfold tspan tspanTag
    simp [Tag.render]

def textTag (x y : N) (fill : Value) (size weight : N) (anchor : Value) (mono : Bool) : Tag where
  name := "text".toList
  attrs := [attr "x" (num x), attr "y" (num y), attr "fill" fill,
    attr "font-family" (if mono then MONO else FONT), attr "font-size" (num size),
    attr "font-weight" (num weight), attr "text-anchor" anchor,
    attr "dominant-baseline" ⟨"central".toList, by decide⟩]
  isName := by decide

theorem refers_textTag (x y : N) (fill : Value) (size weight : N) (anchor : Value) (mono : Bool) :
    Refers (textTag x y fill size weight anchor mono) := by
  unfold Refers textTag
  simp

theorem written_tspanLines (x cy : N) (lines : List Str) (fill : Value) (size weight lh : N)
    (mono : Bool) :
    Written Refers (tspanLines x cy lines fill size weight lh mono).text lines.flatten := by
  have hbody : Written Refers (lines.zipIdx.flatMap fun p => (tspan x lh p.2 p.1).text)
      (lines.zipIdx.flatMap Prod.fst) :=
    .flatMap fun p _ => written_tspan x lh p.2 p.1
  rw [List.flatMap_def (f := Prod.fst), List.zipIdx_map_fst] at hbody
  refine written_element (textTag x (cy - lit (lines.length - 1) * lh / lit 2) fill size weight
    middle mono) (refers_textTag _ _ _ _ _ _ _) hbody ?_
  unfold tspanLines textTag middle
  simp [Tag.render, List.flatMap_map]

theorem written_box (a : Box N) : Written Refers (box a).text (Call.box a).labels.flatten :=
  (written_rrect _).append (written_tspanLines _ _ _ _ _ _ _ _)

theorem written_obox (a : OBox N) : Written Refers (obox a).text (Call.obox a).labels.flatten :=
  (written_rrect _).append (written_tspanLines _ _ _ _ _ _ _ _)

theorem written_text (a : Text N) : Written Refers (text a).text a.s := by
  refine written_element (textTag a.x a.y a.fill a.size a.weight a.anchor a.mono)
    (refers_textTag _ _ _ _ _ _ _) (written_esc a.s) ?_
  unfold text textTag
  simp [Tag.render]

/-- The tag of a line, with the attributes of its head. -/
def lineTag (a : Line N) (head : List Attr) : Tag where
  name := "line".toList
  attrs := [attr "x1" (num a.x1), attr "y1" (num a.y1), attr "x2" (num a.x2),
    attr "y2" (num a.y2), attr "stroke" a.col, attr "stroke-width" (num a.sw)] ++ head ++
    dashAttrs a.dash
  isName := by decide

theorem refers_lineTag (a : Line N) {head : List Attr} (h : ∀ b ∈ head, Points b) :
    Refers (lineTag a head) := by
  unfold Refers lineTag
  simpa [or_imp, forall_and] using ⟨h, points_dashAttrs a.dash⟩

theorem written_line (a : Line N) : Written Refers (line a) [] := by
  refine written_empty (lineTag a []) (refers_lineTag a (by simp)) ?_
  unfold line lineTag
  simp [Tag.render]

/-- `_mk` returns the name of a mark, whatever the colour. -/
theorem exists_mark (col : Value) : ∃ m ∈ marks, mk col = m.1 := by
  unfold mk marks
  split_ifs <;> simp

/-- The attribute of an arrow's head. -/
def markerEnd (col : Value) : Attr where
  name := "marker-end".toList
  value := "url(#ah-".toList ++ mk col ++ ")".toList
  isName := by decide
  clean := by
    obtain ⟨m, hm, he⟩ := exists_mark col
    have hall : ∀ m ∈ marks, Clean m.1 := by decide
    rw [he]
    exact (Clean.append (by decide) (hall m hm)).append (by decide)

theorem points_markerEnd (col : Value) : Points (markerEnd col) := by
  intro _
  obtain ⟨m, hm, he⟩ := exists_mark col
  exact ⟨m, hm, congrArg (fun name => "url(#ah-".toList ++ name ++ ")".toList) he⟩

@[simp] theorem render_markerEnd (col : Value) : (markerEnd col).render =
    " marker-end=\"url(#ah-".toList ++ mk col ++ ")\"".toList := by
  change " ".toList ++ "marker-end".toList ++ "=\"".toList ++
    ("url(#ah-".toList ++ mk col ++ ")".toList) ++ "\"".toList = _
  simp

theorem written_arrow (a : Line N) : Written Refers (arrow a) [] := by
  have hhead : ∀ b ∈ [markerEnd a.col], Points b := by simpa using points_markerEnd a.col
  refine written_empty (lineTag a [markerEnd a.col]) (refers_lineTag a hhead) ?_
  unfold arrow lineTag
  simp [Tag.render]

def markerAttrs (arrowEnd : Bool) (col : Value) : List Attr :=
  if arrowEnd then [markerEnd col] else []

@[simp] theorem render_markerAttrs (arrowEnd : Bool) (col : Value) :
    (markerAttrs arrowEnd col).flatMap Attr.render = markerText arrowEnd col := by
  unfold markerAttrs markerText
  split
  · rw [List.flatMap_singleton, render_markerEnd]
  · rfl

theorem points_markerAttrs (arrowEnd : Bool) (col : Value) :
    ∀ a ∈ markerAttrs arrowEnd col, Points a := by
  unfold markerAttrs
  split
  · simpa using points_markerEnd col
  · simp

def pathTag (a : Path N) : Tag where
  name := "path".toList
  attrs := [attr "d" a.d, attr "fill" a.fill, attr "stroke" a.col,
    attr "stroke-width" (num a.sw)] ++ dashAttrs a.dash ++ markerAttrs a.arrowEnd a.col
  isName := by decide

theorem written_path (a : Path N) : Written Refers (path a) [] := by
  refine written_empty (pathTag a) ?_ ?_
  · unfold Refers pathTag
    simpa [or_imp, forall_and] using
      ⟨points_dashAttrs a.dash, points_markerAttrs a.arrowEnd a.col⟩
  · unfold path pathTag
    simp [Tag.render]

def circleTag (a : Circle N) : Tag where
  name := "circle".toList
  attrs := [attr "cx" (num a.cx), attr "cy" (num a.cy), attr "r" (num a.r), attr "fill" a.fill] ++
    strokeAttrs a.stroke a.sw
  isName := by decide

theorem written_circle (a : Circle N) : Written Refers (circle a) [] := by
  refine written_empty (circleTag a) ?_ ?_
  · unfold Refers circleTag
    simpa [or_imp, forall_and] using points_strokeAttrs a.stroke a.sw
  · unfold circle circleTag
    simp [Tag.render]

theorem clean_cylinderBody (x y w h ry : N) : Clean (cylinderBody x y w h ry) := by
  unfold cylinderBody
  repeat' apply Clean.append
  all_goals first | exact clean_str _ | decide

def bodyTag (a : Cylinder N) (ry : N) : Tag where
  name := "path".toList
  attrs := [attr "d" ⟨_, clean_cylinderBody a.x a.y a.w a.h ry⟩, attr "fill" a.fill] ++
    strokeAttrs a.stroke a.sw
  isName := by decide

def topTag (a : Cylinder N) (ry : N) : Tag where
  name := "ellipse".toList
  attrs := [attr "cx" (num (a.x + a.w / lit 2)), attr "cy" (num (a.y + ry)),
    attr "rx" (num (a.w / lit 2)), attr "ry" (num ry), attr "fill" a.fill] ++
    strokeAttrs a.stroke a.sw
  isName := by decide

theorem written_cylinderBody (a : Cylinder N) (ry : N) :
    Written Refers ("<path d=\"".toList ++ cylinderBody a.x a.y a.w a.h ry ++ "\" ".toList ++
      "fill=\"".toList ++ a.fill.text ++ "\"".toList ++ strokeText a.stroke a.sw ++
      "/>".toList) [] := by
  refine written_empty (bodyTag a ry) ?_ ?_
  · unfold Refers bodyTag
    simpa [or_imp, forall_and] using points_strokeAttrs a.stroke a.sw
  · unfold bodyTag
    simp [Tag.render]

theorem written_cylinderTop (a : Cylinder N) (ry : N) :
    Written Refers ("<ellipse cx=\"".toList ++ str (a.x + a.w / lit 2) ++ "\" cy=\"".toList ++
      str (a.y + ry) ++ "\" rx=\"".toList ++ str (a.w / lit 2) ++ "\" ry=\"".toList ++ str ry ++
      "\" ".toList ++ "fill=\"".toList ++ a.fill.text ++ "\"".toList ++
      strokeText a.stroke a.sw ++ "/>".toList) [] := by
  refine written_empty (topTag a ry) ?_ ?_
  · unfold Refers topTag
    simpa [or_imp, forall_and] using points_strokeAttrs a.stroke a.sw
  · unfold topTag
    simp [Tag.render]

theorem written_cylinder (a : Cylinder N) :
    Written Refers (cylinder a).text (Call.cylinder a).labels.flatten := by
  refine Written.after (Written.after (written_cylinderBody a _) (written_cylinderTop a _)) ?_
  · change Written Refers _ ((a.lines.map Lines.items).getD []).flatten
    split
    next hitems =>
      rw [hitems]
      exact .nil
    next => exact written_tspanLines _ _ _ _ _ _ _ _

theorem written_dashBoundary (x1 y x2 : N) (label : Option Str) :
    Written Refers (dashBoundary x1 y x2 label).text
      (Call.dashBoundary x1 y x2 label).labels.flatten := by
  refine ((written_line _).append (written_line _)).append ?_
  match label with
  | none | some [] => exact .nil
  | some (c :: l) => simpa [Call.labels] using written_text _

/-- A call shows its label text. -/
theorem written_draw (c : Call N) : Written Refers c.draw.text c.labels.flatten := by
  cases c with
  | rrect a => exact written_rrect a
  | box a => exact written_box a
  | obox a => exact written_obox a
  | text a =>
    rw [Call.labels, List.flatten_singleton]
    exact written_text a
  | line a => exact written_line a
  | arrow a => exact written_arrow a
  | path a => exact written_path a
  | circle a => exact written_circle a
  | cylinder a => exact written_cylinder a
  | dashBoundary x1 y x2 label => exact written_dashBoundary x1 y x2 label

/-! ### The document -/

/-- The tag defines the marker that `url(#ah-name)` refers to. -/
def Defines (t : Tag) (name : Str) : Prop :=
  t.name = "marker".toList ∧ ∃ a ∈ t.attrs, a.name = "id".toList ∧ a.value = "ah-".toList ++ name

/-- Every reference to a marker has its marker. -/
def Declared (c : Content) : Prop :=
  ∀ t ∈ c.tags, ∀ a ∈ t.attrs, a.name = "marker-end".toList →
    ∃ name, a.value = "url(#ah-".toList ++ name ++ ")".toList ∧ ∃ m ∈ c.tags, Defines m name

def markerTag (mark : Str × Value) (h : Clean mark.1) : Tag where
  name := "marker".toList
  attrs := [attr "id" ⟨"ah-".toList ++ mark.1, Clean.append (by decide) h⟩,
    attr "viewBox" ⟨"0 0 10 10".toList, by decide⟩, attr "refX" ⟨"8".toList, by decide⟩,
    attr "refY" ⟨"5".toList, by decide⟩, attr "markerWidth" ⟨"4.5".toList, by decide⟩,
    attr "markerHeight" ⟨"4.5".toList, by decide⟩,
    attr "orient" ⟨"auto-start-reverse".toList, by decide⟩]
  isName := by decide

/-- The triangle of a marker. -/
def markerPath (col : Value) : Tag where
  name := "path".toList
  attrs := [attr "d" ⟨"M0 1L9 5L0 9z".toList, by decide⟩, attr "fill" col]
  isName := by decide

theorem render_marker (mark : Str × Value) (h : Clean mark.1) :
    (Content.element (markerTag mark h) (.empty (markerPath mark.2) .nil) .nil).render =
      marker mark := by
  unfold marker markerTag markerPath
  simp [Content.render, Tag.render]

theorem defines_markerTag (mark : Str × Value) (h : Clean mark.1) :
    Defines (markerTag mark h) mark.1 :=
  ⟨rfl, _, List.mem_cons_self, rfl, rfl⟩

theorem exists_markers (l : List (Str × Value)) (hl : ∀ m ∈ l, Clean m.1) :
    ∃ c : Content, c.render = l.flatMap marker ∧ (∀ t ∈ c.tags, Refers t) ∧ c.text = [] ∧
      ∀ m ∈ l, ∃ t ∈ c.tags, Defines t m.1 := by
  induction l with
  | nil => exact ⟨.nil, rfl, by simp [Content.tags], rfl, by simp⟩
  | cons m l ih =>
    obtain ⟨c, hc, hr, hshown, hd⟩ := ih fun m' hm' => hl m' (by simp [hm'])
    have hm := hl m (by simp)
    refine ⟨(Content.element (markerTag m hm) (.empty (markerPath m.2) .nil) .nil).append c,
      ?_, ?_, ?_, ?_⟩
    · rw [Content.render_append, render_marker, hc, List.flatMap_cons]
    · rw [Content.tags_append]
      have htag : Refers (markerTag m hm) := by
        unfold Refers markerTag
        simp
      have hpath : Refers (markerPath m.2) := by
        unfold Refers markerPath
        simp
      simpa [Content.tags, or_imp, forall_and, htag, hpath] using hr
    · simp [Content.text_append, Content.text, hshown]
    · rw [Content.tags_append]
      intro m' hm'
      rcases List.mem_cons.mp hm' with rfl | hm'
      · exact ⟨_, by simp [Content.tags], defines_markerTag m' hm⟩
      · obtain ⟨t, ht, hdef⟩ := hd m' hm'
        exact ⟨t, by simp [ht], hdef⟩

theorem exists_defs : ∃ c : Content, c.render = defs ∧ (∀ t ∈ c.tags, Refers t) ∧ c.text = [] ∧
    ∀ m ∈ marks, ∃ t ∈ c.tags, Defines t m.1 := by
  obtain ⟨c, hc, hr, hshown, hd⟩ := exists_markers marks (by decide)
  refine ⟨.element ⟨"defs".toList, [], by decide⟩ c .nil, ?_, ?_, ?_, ?_⟩
  · unfold defs
    simp [Content.render, Tag.render, hc]
  · simpa [Content.tags, Refers] using hr
  · simp [Content.text, hshown]
  · intro m hm
    obtain ⟨t, ht, hdef⟩ := hd m hm
    exact ⟨t, by simp [Content.tags, ht], hdef⟩

theorem isBase64_ne {c : Char} (h : isBase64 c) : c ≠ '<' ∧ c ≠ '&' := by
  constructor
  · rintro rfl
    revert h
    decide
  · rintro rfl
    revert h
    decide

theorem written_fontStyle (style : FontStyle) : Written Refers style.text [] := by
  cases style with
  | none => exact .nil
  | embedded b64 hb =>
    have hcss : Unmarked ("@font-face\x7bfont-family:\"Virgil\";font-style:normal;".toList ++
        "font-weight:400 700;src:url(\"data:font/woff2;base64,".toList ++ b64 ++
        "\") format(\"woff2\");\x7d".toList) := by
      have hb64 : Unmarked b64 := fun c hc => isBase64_ne (hb c hc)
      exact ((Unmarked.append (by decide) (by decide)).append hb64).append (by decide)
    refine written_element ⟨styleName, [], by decide⟩ (by simp [Refers]) hcss.charData.written ?_
    unfold FontStyle.text styleName
    simp [Tag.render]

theorem written_title (title : Str) : Written Refers (titleText title).text title := by
  unfold titleText
  split
  next h =>
    rw [h]
    exact .nil
  next =>
    refine written_element ⟨"title".toList, [], by decide⟩ (by simp [Refers])
      (written_esc title) ?_
    simp [Tag.render]

/-- The tag of the whole figure. -/
def svgTag (w h : N) : Tag where
  name := "svg".toList
  attrs := [attr "xmlns" ⟨"http://www.w3.org/2000/svg".toList, by decide⟩,
    attr "viewBox" ⟨"0 0 ".toList ++ str w ++ " ".toList ++ str h,
      ((Clean.append (by decide) (clean_str w)).append (by decide)).append (clean_str h)⟩,
    attr "width" (num w), attr "height" (num h), attr "font-family" FONT]
  isName := by decide

theorem refers_svgTag (w h : N) : Refers (svgTag w h) := by
  unfold Refers svgTag
  simp

/-- Around its body, `svg` puts one element after the XML declaration. -/
theorem svg_eq_render (style : FontStyle) (w h : N) (body : Drawn) (title : Str) {c : Content}
    (hc : c.render = (titleText title).text ++ style.text ++ defs ++ body.text) :
    (svg style w h body title).text = "<?xml version=\"1.0\" encoding=\"UTF-8\"?>\n".toList ++
      (Content.element (svgTag w h) c .nil).render ++ "\n".toList := by
  unfold svg svgTag
  simp [Content.render, Tag.render, hc]

/-- The document of a figure: its tags, and what is shown of it. -/
theorem exists_svg (style : FontStyle) (w h : N) (calls : List (Call N)) (title : Str) :
    ∃ content : Content,
      (svg style w h (.join (calls.map Call.draw)) title).text =
        "<?xml version=\"1.0\" encoding=\"UTF-8\"?>\n".toList ++
          (Content.element (svgTag w h) content .nil).render ++ "\n".toList ∧
      Declared (.element (svgTag w h) content .nil) ∧
      content.text = title ++ calls.flatMap fun c => c.labels.flatten := by
  have hbody : Written Refers (calls.flatMap fun c => c.draw.text)
      (calls.flatMap fun c => c.labels.flatten) := .flatMap fun c _ => written_draw c
  obtain ⟨before, hbefore, hbeforeRefs, hbeforeText⟩ :=
    (written_title title).append (written_fontStyle style)
  obtain ⟨defsContent, hdefs, hdefsRefs, hdefsText, hmarks⟩ := exists_defs
  obtain ⟨drawn, hdrawn, hdrawnRefs, hdrawnText⟩ := hbody
  let content := (before.append defsContent).append drawn
  refine ⟨content, svg_eq_render style w h _ title ?_, ?_, ?_⟩
  · rw [Content.render_append, Content.render_append, hbefore, hdefs, hdrawn, Drawn.text_join,
      List.flatMap_map]
  · intro t ht a ha he
    have hrefs : Refers t := by
      simp only [Content.tags, content, Content.tags_append, List.mem_append, List.mem_cons,
        List.append_nil] at ht
      rcases ht with rfl | (ht | ht) | ht
      · exact refers_svgTag w h
      · exact hbeforeRefs t ht
      · exact hdefsRefs t ht
      · exact hdrawnRefs t ht
    obtain ⟨m, hm, hv⟩ := hrefs a ha he
    obtain ⟨d, hd, hdef⟩ := hmarks m hm
    refine ⟨m.1, hv, d, ?_, hdef⟩
    simp [Content.tags, content, Content.tags_append, hd]
  · rw [Content.text_append, Content.text_append, hbeforeText, hdefsText, hdrawnText]
    simp

/-- Whatever is drawn with whatever labels and title, `svg` returns the XML declaration and one
well-nested element, and every reference to a marker in it has its marker. -/
theorem svg_wellFormed (style : FontStyle) (w h : N) (calls : List (Call N)) (title : Str) :
    ∃ (root : Tag) (content : Content),
      (svg style w h (.join (calls.map Call.draw)) title).text =
        "<?xml version=\"1.0\" encoding=\"UTF-8\"?>\n".toList ++
          (Content.element root content .nil).render ++ "\n".toList ∧
      Declared (.element root content .nil) := by
  obtain ⟨content, hsvg, hdeclared, _⟩ := exists_svg style w h calls title
  exact ⟨svgTag w h, content, hsvg, hdeclared⟩

/-- A reader of a figure sees its title and its labels. -/
theorem textContent_svg (style : FontStyle) (w h : N) (calls : List (Call N)) (title : Str) :
    textContent (svg style w h (.join (calls.map Call.draw)) title).text =
      title ++ calls.flatMap fun c => c.labels.flatten := by
  obtain ⟨content, hsvg, _, htext⟩ := exists_svg style w h calls title
  have hprolog : Reads Reader.start "<?xml version=\"1.0\" encoding=\"UTF-8\"?>\n".toList []
      Reader.start := by
    rfl
  have hroot : "svg".toList ≠ styleName := by decide
  rw [hsvg, ← htext]
  exact textContent_document content hprolog rfl hroot

/-- Numbers with one decimal, which is all that most figures use. -/
instance : Number ℚ where
  lit q := q
  str q := (if q < 0 then "-".toList else []) ++ Nat.toDigits 10 (q.num.natAbs / q.den) ++
    ".".toList ++ Nat.toDigits 10 (10 * q.num.natAbs / q.den % 10)
  clean_str q := by
    have hdigits (n : ℕ) : Clean (Nat.toDigits 10 n) := by
      intro c hc
      have hdigit := Nat.isDigit_of_mem_toDigits (by decide) (by decide) hc
      refine ⟨?_, ?_, ?_⟩ <;> rintro rfl <;> revert hdigit <;> decide
    have hsign : Clean (if q < 0 then "-".toList else []) := by
      split <;> decide
    exact ((hsign.append (hdigits _)).append (by decide)).append (hdigits _)

/-- An arrow and a label made of markup. -/
def markupCalls : List (Call ℚ) :=
  [.arrow { x1 := lit 5, y1 := lit 5, x2 := lit 90, y2 := lit 5, col := RED },
    .text { x := lit 5, y := lit 20, s := "</text>&\"<".toList }]

theorem svg_wellFormed_markup : ∃ (root : Tag) (content : Content),
    (svg .none (100 : ℚ) 50 (.join (markupCalls.map Call.draw)) "a < b".toList).text =
      "<?xml version=\"1.0\" encoding=\"UTF-8\"?>\n".toList ++
        (Content.element root content .nil).render ++ "\n".toList ∧
    Declared (.element root content .nil) :=
  svg_wellFormed .none 100 50 markupCalls _

end SystemCalls.GenFigures
