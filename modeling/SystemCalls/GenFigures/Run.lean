import SystemCalls.Files
import SystemCalls.GenFigures.WellFormed
import Mathlib.Data.Finset.Sort

/-!
# The two passes of gen_figures

The script calls every registered function twice. In the first pass `esc` fills `USED_CHARS`,
the font is subset to these characters, and the second pass writes every file again with the
font in it. A figure function may look at the globals; what it does is to write figures that it
has drawn with the primitives.
-/

namespace SystemCalls.GenFigures

open Xml Files

structure Globals where
  usedChars : Finset Char
  fontStyle : FontStyle

/-- One `write(path, svg(w, h, "".join(b), title))`, with the calls whose results are in `b`. -/
structure Figure (N : Type*) [Number N] where
  path : Str
  w : N
  h : N
  calls : List (Call N)
  title : Str := []

variable {N : Type*} [Number N]

namespace Figure

/-- The label text of the figure: its title and that of the calls. -/
def labels (f : Figure N) : List Str :=
  f.calls.flatMap Call.labels ++ if f.title = [] then [] else [f.title]

def content (style : FontStyle) (f : Figure N) : Drawn :=
  svg style f.w f.h (.join (f.calls.map Call.draw)) f.title

/-- The path and the content of the file. -/
def file (style : FontStyle) (f : Figure N) : Str × Str := (f.path, (f.content style).text)

theorem exists_mem_labels {f : Figure N} {c : Char} : (∃ label ∈ f.labels, c ∈ label) ↔
    c ∈ f.title ∨ ∃ call ∈ f.calls, ∃ label ∈ call.labels, c ∈ label := by
  have htitle : (∃ label ∈ (if f.title = [] then [] else [f.title]), c ∈ label) ↔ c ∈ f.title := by
    by_cases ht : f.title = []
    · simp [ht]
    · simp only [if_neg ht, List.mem_singleton, exists_eq_left]
  simp only [labels, List.mem_append, List.mem_flatMap, or_and_right, exists_or, htitle]
  rw [or_comm]
  refine or_congr_right ⟨?_, ?_⟩
  · rintro ⟨label, ⟨call, hcall, hlabel⟩, hc⟩
    exact ⟨call, hcall, label, hlabel, hc⟩
  · rintro ⟨call, hcall, label, hlabel, hc⟩
    exact ⟨label, ⟨call, hcall, hlabel⟩, hc⟩

theorem mem_textContent {f : Figure N} {style : FontStyle} {c : Char} :
    c ∈ textContent (f.content style).text ↔ ∃ label ∈ f.labels, c ∈ label := by
  have htext : textContent (f.content style).text =
      f.title ++ f.calls.flatMap fun call => call.labels.flatten := textContent_svg ..
  rw [htext, exists_mem_labels]
  simp only [List.mem_append, List.mem_flatMap, List.mem_flatten]

end Figure

/-! ### What `esc` has seen -/

@[simp] theorem used_esc (s : Str) : (esc s).used = s.toFinset := rfl

theorem mem_used_tspanLines {x cy : N} {lines : List Str} {fill : Value} {size weight lh : N}
    {mono : Bool} {c : Char} :
    c ∈ (tspanLines x cy lines fill size weight lh mono).used ↔ ∃ ln ∈ lines, c ∈ ln := by
  have hlines : (∃ ln ∈ lines, c ∈ ln) ↔ ∃ p ∈ lines.zipIdx, c ∈ p.1 := by
    conv_lhs => rw [← List.zipIdx_map_fst 0 lines]
    simp only [List.mem_map, exists_exists_and_eq_and]
  rw [hlines]
  unfold tspanLines tspan
  simp only [Drawn.used_append, Drawn.used_plain, Finset.empty_union, Finset.union_empty,
    Drawn.mem_used_join, List.mem_map, exists_exists_and_eq_and, used_esc, List.mem_toFinset]

theorem used_text (a : Text N) : (text a).used = a.s.toFinset := by
  unfold text
  simp only [Drawn.used_append, Drawn.used_plain, used_esc, Finset.empty_union,
    Finset.union_empty]

/-- Every primitive hands its label text to `esc`, and nothing else. -/
theorem mem_used_draw {call : Call N} {c : Char} :
    c ∈ call.draw.used ↔ ∃ label ∈ call.labels, c ∈ label := by
  cases call with
  | rrect | line | arrow | path | circle => simp [Call.draw, Call.labels]
  | box a =>
    cases hl : a.lines <;> simp [Call.draw, Call.labels, box, hl, mem_used_tspanLines]
  | obox a =>
    cases hl : a.lines <;> simp [Call.draw, Call.labels, obox, hl, mem_used_tspanLines]
  | text a => simp [Call.draw, Call.labels, used_text]
  | cylinder a =>
    unfold Call.draw Call.labels cylinder
    simp only [Drawn.used_append, Drawn.used_plain, Finset.empty_union]
    split
    next hitems => simp [hitems]
    next => rw [mem_used_tspanLines]
  | dashBoundary x1 y x2 label =>
    rcases label with - | - | ⟨d, l⟩
    · simp [Call.draw, Call.labels, dashBoundary]
    · simp [Call.draw, Call.labels, dashBoundary]
    · simp [Call.draw, Call.labels, dashBoundary, used_text]

theorem mem_used_titleText {title : Str} {c : Char} : c ∈ (titleText title).used ↔ c ∈ title := by
  unfold titleText
  split
  next h => simp [h]
  next => simp

theorem Figure.mem_used {f : Figure N} {style : FontStyle} {c : Char} :
    c ∈ (f.content style).used ↔ ∃ label ∈ f.labels, c ∈ label := by
  have hsvg : c ∈ (f.content style).used ↔
      c ∈ (titleText f.title).used ∨ c ∈ (Drawn.join (f.calls.map Call.draw)).used := by
    simp only [Figure.content, svg, Drawn.used_append, Drawn.used_plain, Finset.empty_union,
      Finset.union_empty, Finset.mem_union]
  rw [hsvg, mem_used_titleText, Drawn.mem_used_join, Figure.exists_mem_labels]
  simp only [List.mem_map, exists_exists_and_eq_and, mem_used_draw]

/-- A function registered with `fig`. -/
abbrev FigureFn (N : Type*) [Number N] := Globals → List (Figure N)

structure State where
  globals : Globals
  disk : Str → Option Str
  /-- The files that the current pass has written. -/
  written : List (Str × Str)

/-- `USED_CHARS` grows while the figure is drawn. -/
def State.writeFigure (s : State) (f : Figure N) : State :=
  let content := f.content s.globals.fontStyle
  { globals := { s.globals with usedChars := s.globals.usedChars ∪ content.used }
    disk := Function.update s.disk f.path (some content.text)
    written := s.written ++ [(f.path, content.text)] }

def runFn (s : State) (fn : FigureFn N) : State := (fn s.globals).foldl State.writeFigure s

/-- `for fn in ALL: fn()` -/
def pass (s : State) (all : List (FigureFn N)) : State := all.foldl runFn s

/-- A fresh start of the script. -/
def State.start (disk : Str → Option Str) : State := ⟨⟨∅, .none⟩, disk, []⟩

def firstPass (all : List (FigureFn N)) (disk : Str → Option Str) : State :=
  pass (State.start disk) all

/-- `build` is what the font tools make of the sorted characters. -/
def buildFontStyle (build : Str → FontStyle) (chars : Finset Char) : FontStyle :=
  build (chars.sort)

/-- `FONT_STYLE` is set between the passes. -/
def State.withFont (build : Str → FontStyle) (s : State) : State where
  globals := { s.globals with fontStyle := buildFontStyle build s.globals.usedChars }
  disk := s.disk
  written := []

def main (build : Str → FontStyle) (all : List (FigureFn N)) (disk : Str → Option Str) : State :=
  pass ((firstPass all disk).withFont build) all

variable {s : State} {all all' : List (FigureFn N)} {disk : Str → Option Str}
  {build : Str → FontStyle} {fn : FigureFn N}

/-! ### What a pass does -/

/-- The globals after these strings have gone through `esc`. -/
def Globals.escaped (g : Globals) (labels : List Str) : Globals :=
  { g with usedChars := g.usedChars ∪ labels.flatten.toFinset }

theorem Globals.escaped_nil (g : Globals) : g.escaped [] = g := by
  simp [Globals.escaped]

theorem Globals.escaped_append (g : Globals) (l l' : List Str) :
    g.escaped (l ++ l') = (g.escaped l).escaped l' := by
  simp [Globals.escaped, Finset.union_assoc]

theorem Globals.mem_escaped {g : Globals} {l : List Str} {c : Char} :
    c ∈ (g.escaped l).usedChars ↔ c ∈ g.usedChars ∨ ∃ label ∈ l, c ∈ label := by
  simp [Globals.escaped]

/-- The label text of a function's figures. -/
def labelsOf (fn : FigureFn N) (g : Globals) : List Str := (fn g).flatMap Figure.labels

theorem writeFigure_eq (s : State) (f : Figure N) : s.writeFigure f =
    ⟨s.globals.escaped f.labels, Function.update s.disk f.path
      (some (f.content s.globals.fontStyle).text), s.written ++ [f.file s.globals.fontStyle]⟩ := by
  have hused : (f.content s.globals.fontStyle).used = f.labels.flatten.toFinset := by
    ext c
    simp [Figure.mem_used]
  rw [Globals.escaped, ← hused]
  rfl

theorem foldl_writeFigure (figures : List (Figure N)) (s : State) :
    figures.foldl State.writeFigure s =
      ⟨s.globals.escaped (figures.flatMap Figure.labels),
        writeAll s.disk (figures.map (Figure.file s.globals.fontStyle)),
        s.written ++ figures.map (Figure.file s.globals.fontStyle)⟩ := by
  induction figures generalizing s with
  | nil => simp [Globals.escaped_nil]
  | cons f figures ih =>
    rw [List.foldl_cons, ih, List.flatMap_cons, Globals.escaped_append, writeFigure_eq]
    simp [Globals.escaped, Figure.file]

theorem runFn_globals (s : State) (fn : FigureFn N) :
    (runFn s fn).globals = s.globals.escaped (labelsOf fn s.globals) :=
  congrArg State.globals (foldl_writeFigure (fn s.globals) s)

theorem runFn_fontStyle (s : State) (fn : FigureFn N) :
    (runFn s fn).globals.fontStyle = s.globals.fontStyle := by
  rw [runFn_globals]
  rfl

theorem runFn_disk (s : State) (fn : FigureFn N) : (runFn s fn).disk =
    writeAll s.disk ((fn s.globals).map (Figure.file s.globals.fontStyle)) :=
  congrArg State.disk (foldl_writeFigure (fn s.globals) s)

theorem runFn_written (s : State) (fn : FigureFn N) : (runFn s fn).written =
    s.written ++ (fn s.globals).map (Figure.file s.globals.fontStyle) :=
  congrArg State.written (foldl_writeFigure (fn s.globals) s)

theorem pass_cons : pass s (fn :: all) = pass (runFn s fn) all := rfl

/-- Every file that a pass writes is a figure of one of the functions, with the style that the
pass began with. -/
theorem exists_of_mem_written {w : Str × Str} (hw : w ∈ (pass s all).written) :
    w ∈ s.written ∨ ∃ fn ∈ all, ∃ g, ∃ f ∈ fn g, f.file s.globals.fontStyle = w := by
  induction all generalizing s with
  | nil => exact Or.inl hw
  | cons fn all ih =>
    rcases ih (s := runFn s fn) hw with hw | ⟨fn', hfn, g, f, hf, he⟩
    · rw [runFn_written] at hw
      rcases List.mem_append.mp hw with hw | hw
      · exact Or.inl hw
      · obtain ⟨f, hf, he⟩ := List.mem_map.mp hw
        exact Or.inr ⟨fn, by simp, s.globals, f, hf, he⟩
    · rw [runFn_fontStyle] at he
      exact Or.inr ⟨fn', by simp [hfn], g, f, hf, he⟩

section Labels

/-- The label text of the functions does not depend on the globals. -/
def FixedLabels (all : List (FigureFn N)) : Prop :=
  ∀ fn ∈ all, ∀ g g', labelsOf fn g = labelsOf fn g'

/-- A pass adds the labels of all functions, which may be taken at any globals. -/
theorem pass_globals (h : FixedLabels all) (g : Globals) :
    (pass s all).globals = s.globals.escaped (all.flatMap fun fn => labelsOf fn g) := by
  induction all generalizing s with
  | nil => exact s.globals.escaped_nil.symm
  | cons fn all ih =>
    have hrest := ih (s := runFn s fn) fun fn' hfn => h fn' (by simp [hfn])
    rw [pass_cons, hrest, runFn_globals, List.flatMap_cons, Globals.escaped_append,
      h fn (by simp) g s.globals]

theorem mem_firstPass (h : FixedLabels all) {c : Char} (g : Globals) :
    c ∈ (firstPass all disk).globals.usedChars ↔
      ∃ fn ∈ all, ∃ label ∈ labelsOf fn g, c ∈ label := by
  have hstart : c ∉ (State.start disk).globals.usedChars := Finset.notMem_empty c
  unfold firstPass
  rw [pass_globals h g, Globals.mem_escaped]
  simp only [hstart, false_or, List.mem_flatMap]
  constructor
  · rintro ⟨label, ⟨fn, hfn, hlabel⟩, hc⟩
    exact ⟨fn, hfn, label, hlabel, hc⟩
  · rintro ⟨fn, hfn, label, hlabel, hc⟩
    exact ⟨label, ⟨fn, hfn, hlabel⟩, hc⟩

/-- What a reader sees of a file of the second pass is made of the characters that the font was
built from. -/
def Covered (build : Str → FontStyle) (all : List (FigureFn N)) (disk : Str → Option Str) : Prop :=
  ∀ w ∈ (main build all disk).written, ∀ c ∈ textContent w.2,
    c ∈ (firstPass all disk).globals.usedChars

/-- The font covers every figure. -/
theorem textContent_covered (h : FixedLabels all) : Covered build all disk := by
  intro w hw c hc
  rcases exists_of_mem_written hw with hw | ⟨fn, hfn, g, f, hf, rfl⟩
  · exact absurd hw List.not_mem_nil
  · obtain ⟨label, hlabel, hmem⟩ := Figure.mem_textContent.mp hc
    have hlabels : label ∈ labelsOf fn g := List.mem_flatMap.mpr ⟨f, hf, hlabel⟩
    exact (mem_firstPass h g).mpr ⟨fn, hfn, label, hlabels, hmem⟩

/-- A function whose figure grows with the number of characters used. -/
def wideFn : FigureFn ℚ := fun g =>
  [{ path := "figures/wide.svg".toList, w := g.usedChars.card, h := 50,
     calls := [.text { x := 5, y := 20, s := "read(2) & write(2)".toList }] }]

theorem textContent_covered_wide :
    Covered (fun _ => .embedded "AA==".toList (by simp [isBase64])) [wideFn] fun _ => none := by
  refine textContent_covered ?_
  intro fn hfn g g'
  rw [List.mem_singleton.mp hfn]
  rfl

end Labels

/-! ### What is on disk -/

/-- The functions do not look at the globals. -/
def Fixed (all : List (FigureFn N)) : Prop := ∀ fn ∈ all, ∀ g g', fn g = fn g'

theorem Fixed.labels (h : Fixed all) : FixedLabels all := by
  intro fn hfn g g'
  rw [labelsOf, labelsOf, h fn hfn g g']

/-- The files of one pass with a given style, in order. -/
def filesOf (style : FontStyle) (all : List (FigureFn N)) : List (Str × Str) :=
  all.flatMap fun fn => (fn ⟨∅, .none⟩).map (Figure.file style)

theorem pass_disk (h : Fixed all) :
    (pass s all).disk = writeAll s.disk (filesOf s.globals.fontStyle all) := by
  induction all generalizing s with
  | nil => rfl
  | cons fn all ih =>
    have hrest := ih (s := runFn s fn) fun fn' hfn => h fn' (by simp [hfn])
    rw [pass_cons, hrest, runFn_fontStyle, runFn_disk, h fn (by simp) s.globals ⟨∅, .none⟩,
      ← writeAll_append]
    rfl

/-- The characters do not depend on what is on disk or on the order of the functions. -/
theorem firstPass_usedChars_perm (h : Fixed all) (hperm : all.Perm all')
    (disk disk' : Str → Option Str) : (firstPass all disk).globals.usedChars =
      (firstPass all' disk').globals.usedChars := by
  have h' : Fixed all' := fun fn hfn => h fn (hperm.mem_iff.mpr hfn)
  ext c
  rw [mem_firstPass h.labels ⟨∅, .none⟩, mem_firstPass h'.labels ⟨∅, .none⟩]
  simp only [hperm.mem_iff]

/-- Of the files of the first pass nothing is left. -/
theorem main_disk (h : Fixed all) : (main build all disk).disk = writeAll disk
    (filesOf (buildFontStyle build (firstPass all disk).globals.usedChars) all) := by
  unfold main
  rw [pass_disk h]
  change writeAll (firstPass all disk).disk _ = _
  unfold firstPass
  rw [pass_disk h]
  refine writeAll_writeAll ?_
  intro w hw
  obtain ⟨fn, hfn, hw⟩ := List.mem_flatMap.mp hw
  obtain ⟨f, hf, rfl⟩ := List.mem_map.mp hw
  exact ⟨f.file _, List.mem_flatMap.mpr ⟨fn, hfn, List.mem_map_of_mem hf⟩, rfl⟩

def processFn : FigureFn ℚ := fun _ =>
  [{ path := "figures/process.svg".toList, w := 100, h := 50,
     calls := [.box { x := 5, y := 5, w := 90, h := 40, lines := .str "fork()".toList }] }]

def timeFn : FigureFn ℚ := fun _ =>
  [{ path := "figures/time.svg".toList, w := 100, h := 50, calls := [], title := "time".toList }]

/-- Functions that write different paths leave the same files in whatever order they are
registered, and a second run of the script changes none of them. -/
theorem main_order_irrelevant (h : Fixed all) (hperm : all.Perm all')
    (hpaths : all.Pairwise fun fn fn' =>
      ∀ g g', ∀ f ∈ fn g, ∀ f' ∈ fn' g', f.path ≠ f'.path) :
    (main build all' disk).disk = (main build all disk).disk ∧
      (main build all (main build all disk).disk).disk = (main build all disk).disk := by
  have h' : Fixed all' := fun fn hfn => h fn (hperm.mem_iff.mpr hfn)
  constructor
  · rw [main_disk h, main_disk h', firstPass_usedChars_perm h hperm disk disk]
    refine (writeAll_perm hperm (hpaths.imp ?_)).symm
    intro fn fn' hne w hw w' hw'
    obtain ⟨f, hf, rfl⟩ := List.mem_map.mp hw
    obtain ⟨f', hf', rfl⟩ := List.mem_map.mp hw'
    exact hne _ _ f hf f' hf'
  · have hchars := firstPass_usedChars_perm h (.refl all) (main build all disk).disk disk
    rw [main_disk h, hchars, main_disk h]
    exact writeAll_writeAll fun w hw => ⟨w, hw, rfl⟩

/-- What stands in for the font tools here: one letter of the style sheet for each character. -/
def perChar (chars : Str) : FontStyle :=
  .embedded (List.replicate chars.length 'A') fun _ h => by
    simp [List.eq_of_mem_replicate h, isBase64]

theorem main_order_irrelevant_two :
    (main perChar [processFn, timeFn] fun _ => none).disk =
        (main perChar [timeFn, processFn] fun _ => none).disk ∧
      (main perChar [timeFn, processFn]
        (main perChar [timeFn, processFn] fun _ => none).disk).disk =
        (main perChar [timeFn, processFn] fun _ => none).disk := by
  refine main_order_irrelevant ?_ (.swap processFn timeFn []) ?_
  · unfold Fixed
    simp [processFn, timeFn]
  · simp [processFn, timeFn]

end SystemCalls.GenFigures
