import SystemCalls.Xml

/-!
# The text of markup

What a reader of a document sees of it: the character data outside of style sheets, with the
entities decoded. It is read off the characters of the document one by one, and for well-nested
content it is the text of the tree.
-/

namespace SystemCalls.Xml

def decode : Str → Str
  | '&' :: 'a' :: 'm' :: 'p' :: ';' :: s => '&' :: decode s
  | '&' :: 'l' :: 't' :: ';' :: s => '<' :: decode s
  | '&' :: 'g' :: 't' :: ';' :: s => '>' :: decode s
  | c :: s => c :: decode s
  | [] => []

/-- The name of the elements whose content is not shown. -/
def styleName : Str := "style".toList

namespace Content

def text : Content → Str
  | nil => []
  | chars s _ rest => decode s ++ rest.text
  | empty _ rest => rest.text
  | element t body rest => (if t.name = styleName then [] else body.text) ++ rest.text

theorem text_append (c d : Content) : (c.append d).text = c.text ++ d.text := by
  induction c with
  | nil => rfl
  | chars s h rest ih | empty t rest ih => simp [append, text, ih]
  | element t body rest _ ih => simp [append, text, ih]

end Content

theorem decode_cons {c : Char} (s : Str) (hc : c ≠ '&') : decode (c :: s) = c :: decode s := by
  rw [decode.eq_def]
  split <;> simp_all

/-- The text of some content all of whose tags meet `P`, and in which `out` is shown. -/
def Written (P : Tag → Prop) (s out : Str) : Prop :=
  ∃ c : Content, c.render = s ∧ (∀ t ∈ c.tags, P t) ∧ c.text = out

section Rules

variable {P : Tag → Prop} {s s' out out' : Str} {t : Tag}

theorem Written.nil : Written P [] [] :=
  ⟨.nil, rfl, by simp [Content.tags], rfl⟩

theorem Written.append (h : Written P s out) (h' : Written P s' out') :
    Written P (s ++ s') (out ++ out') := by
  obtain ⟨c, rfl, hc, rfl⟩ := h
  obtain ⟨d, rfl, hd, rfl⟩ := h'
  refine ⟨c.append d, c.render_append d, ?_, c.text_append d⟩
  intro t ht
  rw [c.tags_append d, List.mem_append] at ht
  exact ht.elim (hc t) (hd t)

/-- After something that shows nothing. -/
theorem Written.after (h : Written P s []) (h' : Written P s' out) : Written P (s ++ s') out :=
  h.append h'

theorem Written.flatMap {α : Type*} {l : List α} {f g : α → Str}
    (h : ∀ a ∈ l, Written P (f a) (g a)) : Written P (l.flatMap f) (l.flatMap g) := by
  induction l with
  | nil => exact .nil
  | cons a l ih =>
    rw [List.flatMap_cons, List.flatMap_cons]
    exact (h a (by simp)).append (ih fun b hb => h b (by simp [hb]))

theorem CharData.written (h : CharData s) : Written P s (decode s) :=
  ⟨.chars s h .nil, by simp [Content.render], by simp [Content.tags], by simp [Content.text]⟩

theorem Written.empty (ht : P t) : Written P ("<".toList ++ t.render ++ "/>".toList) [] :=
  ⟨.empty t .nil, by simp [Content.render], by simpa [Content.tags] using ht, rfl⟩

theorem Written.element (ht : P t) (h : Written P s out) :
    Written P ("<".toList ++ t.render ++ ">".toList ++ s ++ "</".toList ++ t.name ++ ">".toList)
      (if t.name = styleName then [] else out) := by
  obtain ⟨c, rfl, hc, rfl⟩ := h
  refine ⟨.element t c .nil, by simp [Content.render], ?_, by simp [Content.text]⟩
  simpa [Content.tags, ht] using hc

end Rules

/-! ### Reading a document -/

inductive Mode
  | text
  | entity (name : Str)
  /-- After `<`, in the name of the tag. -/
  | name (name : Str)
  /-- After the name, with the last character outside of attribute values. -/
  | tag (name : Str) (quoted : Bool) (last : Char)

/-- `depth` counts the open elements and `hidden` the style sheets among them. -/
structure Reader where
  mode : Mode
  depth : ℕ
  hidden : ℕ

namespace Reader

/-- Characters are shown inside of an element and outside of style sheets. -/
def visible (r : Reader) (s : Str) : Str :=
  if 0 < r.depth ∧ r.hidden = 0 then s else []

def entityText (name : Str) : Str :=
  if name = "amp".toList then ['&']
  else if name = "lt".toList then ['<']
  else if name = "gt".toList then ['>']
  else '&' :: name ++ [';']

/-- At the `>` of a tag: an end tag, one that closes itself or a declaration, or a start tag. -/
def endTag (r : Reader) (name : Str) (last : Char) : Reader :=
  if name.head? = some '/' then
    ⟨.text, r.depth - 1, if name.tail = styleName then r.hidden - 1 else r.hidden⟩
  else if last = '/' ∨ name.head? = some '?' then ⟨.text, r.depth, r.hidden⟩
  else ⟨.text, r.depth + 1, if name = styleName then r.hidden + 1 else r.hidden⟩

/-- The next character, and what is shown of it. -/
def step (r : Reader) (c : Char) : Reader × Str :=
  match r.mode with
  | .text =>
    if c = '<' then (⟨.name [], r.depth, r.hidden⟩, [])
    else if c = '&' then (⟨.entity [], r.depth, r.hidden⟩, [])
    else (r, r.visible [c])
  | .entity name =>
    if c = ';' then (⟨.text, r.depth, r.hidden⟩, r.visible (entityText name))
    else (⟨.entity (name ++ [c]), r.depth, r.hidden⟩, [])
  | .name name =>
    if c = '>' then (r.endTag name (name.getLastD ' '), [])
    else if c = ' ' then (⟨.tag name false c, r.depth, r.hidden⟩, [])
    else (⟨.name (name ++ [c]), r.depth, r.hidden⟩, [])
  | .tag name true _ => (⟨.tag name (c != '"') '"', r.depth, r.hidden⟩, [])
  | .tag name false last =>
    if c = '>' then (r.endTag name last, [])
    else (⟨.tag name (c == '"') c, r.depth, r.hidden⟩, [])

def run (r : Reader) : Str → Reader × Str
  | [] => (r, [])
  | c :: s => ((run (r.step c).1 s).1, (r.step c).2 ++ (run (r.step c).1 s).2)

/-- Before and after a document. -/
def start : Reader := ⟨.text, 0, 0⟩

end Reader

def textContent (s : Str) : Str := (Reader.start.run s).2

/-- Reading `s` shows `out` and leads to `r'`. -/
def Reads (r : Reader) (s out : Str) (r' : Reader) : Prop := r.run s = (r', out)

variable {r r' r'' : Reader} {s s' out out' : Str} {d h : ℕ}

theorem Reads.nil (r : Reader) : Reads r [] [] r := rfl

theorem Reads.cons {c : Char} (hc : r.step c = (r', out)) (hs : Reads r' s out' r'') :
    Reads r (c :: s) (out ++ out') r'' := by
  unfold Reads at *
  simp [Reader.run, hc, hs]

theorem Reads.append (hs : Reads r s out r') (hs' : Reads r' s' out' r'') :
    Reads r (s ++ s') (out ++ out') r'' := by
  induction s generalizing r out with
  | nil =>
    cases hs
    exact hs'
  | cons c s ih =>
    obtain ⟨rfl, rfl⟩ : (Reader.run (r.step c).1 s).1 = r' ∧
        (r.step c).2 ++ (Reader.run (r.step c).1 s).2 = out := by
      simpa [Reads, Reader.run] using hs
    rw [List.append_assoc]
    exact .cons rfl (ih rfl)

section Tags

variable {name : Str} {last : Char}

/-- Up to the end of its name. -/
theorem reads_name (acc : Str) (hs : ∀ c ∈ s, c ≠ '>' ∧ c ≠ ' ') :
    Reads ⟨.name acc, d, h⟩ s [] ⟨.name (acc ++ s), d, h⟩ := by
  induction s generalizing acc with
  | nil =>
    rw [List.append_nil]
    exact .nil _
  | cons c s ih =>
    have hc := hs c (by simp)
    have hrest := ih (acc ++ [c]) fun a ha => hs a (by simp [ha])
    rw [List.append_assoc] at hrest
    have hstep : Reader.step ⟨.name acc, d, h⟩ c = (⟨.name (acc ++ [c]), d, h⟩, []) := by
      simp [Reader.step, hc]
    exact Reads.cons hstep hrest

theorem reads_quoted (hs : ∀ c ∈ s, c ≠ '"') :
    Reads ⟨.tag name true '"', d, h⟩ s [] ⟨.tag name true '"', d, h⟩ := by
  induction s with
  | nil => exact .nil _
  | cons c s ih =>
    have hc : (c != '"') = true := bne_iff_ne.mpr (hs c (by simp))
    have hstep : Reader.step ⟨.tag name true '"', d, h⟩ c = (⟨.tag name true '"', d, h⟩, []) := by
      simp only [Reader.step, hc]
    exact Reads.cons hstep (ih fun a ha => hs a (by simp [ha]))

theorem reads_unquoted (hs : ∀ c ∈ s, c ≠ '>' ∧ c ≠ '"') :
    Reads ⟨.tag name false last, d, h⟩ s [] ⟨.tag name false (s.getLastD last), d, h⟩ := by
  induction s generalizing last with
  | nil => exact .nil _
  | cons c s ih =>
    have hc := hs c (by simp)
    have hstep : Reader.step ⟨.tag name false last, d, h⟩ c = (⟨.tag name false c, d, h⟩, []) := by
      simp [Reader.step, hc]
    rw [List.getLastD_cons]
    exact Reads.cons hstep (ih fun a ha => hs a (by simp [ha]))

theorem IsName.ne {c : Char} (hn : IsName name) (hc : c ∈ name) :
    c ≠ '>' ∧ c ≠ ' ' ∧ c ≠ '"' ∧ c ≠ '/' ∧ c ≠ '?' := by
  have hname := hn.2 c hc
  refine ⟨?_, ?_, ?_, ?_, ?_⟩ <;> rintro rfl <;> revert hname <;> decide

/-- The rest of an attribute, from its name on. -/
theorem reads_attr (a : Attr) :
    Reads ⟨.tag name false ' ', d, h⟩ (a.name ++ "=\"".toList ++ a.value ++ "\"".toList) []
      ⟨.tag name false '"', d, h⟩ := by
  have hname : Reads ⟨.tag name false ' ', d, h⟩ a.name [] _ :=
    reads_unquoted fun c hc => ⟨(a.isName.ne hc).1, (a.isName.ne hc).2.2.1⟩
  have heq : Reads ⟨.tag name false (a.name.getLastD ' '), d, h⟩ "=\"".toList []
      ⟨.tag name true '"', d, h⟩ := rfl
  have hvalue : Reads ⟨.tag name true '"', d, h⟩ a.value [] _ :=
    reads_quoted fun c hc => (a.clean c hc).1
  have hquote : Reads ⟨.tag name true '"', d, h⟩ "\"".toList [] ⟨.tag name false '"', d, h⟩ := rfl
  exact ((hname.append heq).append hvalue).append hquote

theorem reads_attrs (attrs : List Attr) :
    Reads ⟨.tag name false '"', d, h⟩ (attrs.flatMap Attr.render) []
      ⟨.tag name false '"', d, h⟩ := by
  induction attrs with
  | nil => exact .nil _
  | cons a attrs ih =>
    rw [List.flatMap_cons]
    have hspace : Reads ⟨.tag name false '"', d, h⟩ " ".toList [] ⟨.tag name false ' ', d, h⟩ := rfl
    have hattr := (hspace.append (reads_attr a)).append ih
    simpa [Attr.render] using hattr

/-- Before the end of a tag, with attributes or without. -/
theorem reads_tag (t : Tag) : ∃ r, Reads ⟨.text, d, h⟩ ("<".toList ++ t.render) [] r ∧
    (r = ⟨.name t.name, d, h⟩ ∨ r = ⟨.tag t.name false '"', d, h⟩) := by
  have hless : Reads ⟨.text, d, h⟩ "<".toList [] ⟨.name [], d, h⟩ := rfl
  have hname : Reads ⟨.name [], d, h⟩ t.name [] ⟨.name ([] ++ t.name), d, h⟩ :=
    reads_name [] fun c hc => ⟨(t.isName.ne hc).1, (t.isName.ne hc).2.1⟩
  obtain ⟨name, attrs, hn⟩ := t
  cases attrs with
  | nil => exact ⟨_, by simpa [Tag.render] using hless.append hname, Or.inl rfl⟩
  | cons a attrs =>
    have hspace : Reads ⟨.name name, d, h⟩ " ".toList [] ⟨.tag name false ' ', d, h⟩ := rfl
    have hattrs := ((hspace.append (reads_attr a)).append (reads_attrs attrs))
    have hall := (hless.append hname).append hattrs
    exact ⟨_, by simpa [Tag.render, Attr.render] using hall, Or.inr rfl⟩

theorem IsName.head?_ne (hn : IsName name) : name.head? ≠ some '/' ∧ name.head? ≠ some '?' := by
  constructor
  · intro hh
    exact (hn.ne (List.mem_of_head? hh)).2.2.2.1 rfl
  · intro hh
    exact (hn.ne (List.mem_of_head? hh)).2.2.2.2 rfl

theorem IsName.getLastD_ne (hn : IsName name) : name.getLastD ' ' ≠ '/' := by
  rw [List.getLastD_eq_getLast?, List.getLast?_eq_getLast_of_ne_nil hn.1]
  exact (hn.ne (List.getLast_mem hn.1)).2.2.2.1

theorem endTag_empty (hn : name.head? ≠ some '/') :
    r.endTag name '/' = ⟨.text, r.depth, r.hidden⟩ := by
  simp [Reader.endTag, hn]

theorem endTag_open (hn : IsName name) (hl : last ≠ '/') : r.endTag name last =
    ⟨.text, r.depth + 1, if name = styleName then r.hidden + 1 else r.hidden⟩ := by
  simp [Reader.endTag, hn.head?_ne, hl]

theorem reads_open (t : Tag) : Reads ⟨.text, d, h⟩ ("<".toList ++ t.render ++ ">".toList) []
    ⟨.text, d + 1, if t.name = styleName then h + 1 else h⟩ := by
  obtain ⟨r, hr, rfl | rfl⟩ := reads_tag (d := d) (h := h) t
  · have hend : Reads ⟨.name t.name, d, h⟩ ">".toList []
        (Reader.endTag ⟨.name t.name, d, h⟩ t.name (t.name.getLastD ' ')) := rfl
    rw [endTag_open t.isName t.isName.getLastD_ne] at hend
    exact hr.append hend
  · have hend : Reads ⟨.tag t.name false '"', d, h⟩ ">".toList []
        (Reader.endTag ⟨.tag t.name false '"', d, h⟩ t.name '"') := rfl
    rw [endTag_open t.isName (by decide)] at hend
    exact hr.append hend

theorem reads_empty (t : Tag) : Reads ⟨.text, d, h⟩ ("<".toList ++ t.render ++ "/>".toList) []
    ⟨.text, d, h⟩ := by
  obtain ⟨r, hr, rfl | rfl⟩ := reads_tag (d := d) (h := h) t
  · have hslash : Reads ⟨.name t.name, d, h⟩ "/".toList [] ⟨.name (t.name ++ ['/']), d, h⟩ := rfl
    have hhead : (t.name ++ ['/']).head? ≠ some '/' := by
      obtain ⟨c, name, hc⟩ := List.exists_cons_of_ne_nil t.isName.1
      have hne := t.isName.head?_ne.1
      rw [hc] at hne ⊢
      exact hne
    have hend : Reads ⟨.name (t.name ++ ['/']), d, h⟩ ">".toList [] ⟨.text, d, h⟩ := by
      simp [Reads, Reader.run, Reader.step, endTag_empty hhead]
    exact hr.append (hslash.append hend)
  · have hend : Reads ⟨.tag t.name false '"', d, h⟩ "/>".toList [] ⟨.text, d, h⟩ := by
      simp [Reads, Reader.run, Reader.step, endTag_empty t.isName.head?_ne.1]
    exact hr.append hend

theorem reads_close (hn : IsName name) :
    Reads ⟨.text, d, h⟩ ("</".toList ++ name ++ ">".toList) []
      ⟨.text, d - 1, if name = styleName then h - 1 else h⟩ := by
  have hslash : Reads ⟨.text, d, h⟩ "</".toList [] ⟨.name "/".toList, d, h⟩ := rfl
  have hname : Reads ⟨.name "/".toList, d, h⟩ name [] ⟨.name ("/".toList ++ name), d, h⟩ :=
    reads_name _ fun c hc => ⟨(hn.ne hc).1, (hn.ne hc).2.1⟩
  have hend : Reads ⟨.name ("/".toList ++ name), d, h⟩ ">".toList []
      ⟨.text, d - 1, if name = styleName then h - 1 else h⟩ := rfl
  exact (hslash.append hname).append hend

end Tags

/-! ### Content is read as its text -/

theorem visible_eq (hd : 0 < d) (s : Str) :
    Reader.visible ⟨.text, d, h⟩ s = if h = 0 then s else [] := by
  simp [Reader.visible, hd]

/-- An entity is read as its character. -/
theorem reads_entity {name : Str} {c : Char} (hd : 0 < d)
    (hn : Reads ⟨.text, d, h⟩ name (Reader.visible ⟨.text, d, h⟩ [c]) ⟨.text, d, h⟩)
    (hdec : decode (name ++ s) = c :: decode s)
    (hs : Reads ⟨.text, d, h⟩ s (if h = 0 then decode s else []) ⟨.text, d, h⟩) :
    Reads ⟨.text, d, h⟩ (name ++ s) (if h = 0 then decode (name ++ s) else []) ⟨.text, d, h⟩ := by
  have hboth := hn.append hs
  rw [visible_eq hd] at hboth
  rw [hdec]
  by_cases hh : h = 0 <;> simpa [hh] using hboth

theorem reads_chars (hs : CharData s) (hd : 0 < d) :
    Reads ⟨.text, d, h⟩ s (if h = 0 then decode s else []) ⟨.text, d, h⟩ := by
  induction hs with
  | nil => simp [Reads, Reader.run, decode]
  | @char c s hc _ ih =>
    have hstep : Reader.step ⟨.text, d, h⟩ c =
        (⟨.text, d, h⟩, Reader.visible ⟨.text, d, h⟩ [c]) := by
      simp [Reader.step, hc]
    have hone : Reads ⟨.text, d, h⟩ [c] (Reader.visible ⟨.text, d, h⟩ [c]) ⟨.text, d, h⟩ := by
      simpa using Reads.cons hstep (.nil _)
    exact reads_entity hd hone (decode_cons s hc.2) ih
  | amp _ ih =>
    have hamp : Reads ⟨.text, d, h⟩ "&amp;".toList (Reader.visible ⟨.text, d, h⟩ ['&'])
        ⟨.text, d, h⟩ := by
      simp [Reads, Reader.run, Reader.step, Reader.entityText, Reader.visible]
    exact reads_entity hd hamp rfl ih
  | lt _ ih =>
    have hlt : Reads ⟨.text, d, h⟩ "&lt;".toList (Reader.visible ⟨.text, d, h⟩ ['<'])
        ⟨.text, d, h⟩ := by
      simp [Reads, Reader.run, Reader.step, Reader.entityText, Reader.visible]
    exact reads_entity hd hlt rfl ih
  | gt _ ih =>
    have hgt : Reads ⟨.text, d, h⟩ "&gt;".toList (Reader.visible ⟨.text, d, h⟩ ['>'])
        ⟨.text, d, h⟩ := by
      simp [Reads, Reader.run, Reader.step, Reader.entityText, Reader.visible]
    exact reads_entity hd hgt rfl ih

theorem reads_content (c : Content) (hd : 0 < d) :
    Reads ⟨.text, d, h⟩ c.render (if h = 0 then c.text else []) ⟨.text, d, h⟩ := by
  induction c generalizing d h with
  | nil => simp [Reads, Content.render, Content.text, Reader.run]
  | chars s hs rest ih =>
    have hboth := (reads_chars (h := h) hs hd).append (ih (h := h) hd)
    by_cases hh : h = 0 <;> simpa [Content.render, Content.text, hh] using hboth
  | empty t rest ih =>
    have hboth := (reads_empty (d := d) (h := h) t).append (ih (h := h) hd)
    by_cases hh : h = 0 <;> simpa [Content.render, Content.text, hh] using hboth
  | element t body rest ihb ih =>
    have hopen := reads_open (d := d) (h := h) t
    by_cases ht : t.name = styleName
    · -- A style sheet adds one to `hidden` until its end tag.
      have hclose := reads_close (d := d + 1) (h := h + 1) t.isName
      rw [if_pos ht] at hopen hclose
      have hall := ((hopen.append (ihb (by omega))).append hclose).append (ih (h := h) hd)
      by_cases hh : h = 0 <;> simpa [Content.render, Content.text, ht, hh] using hall
    · have hclose := reads_close (d := d + 1) (h := h) t.isName
      rw [if_neg ht] at hopen hclose
      have hall := ((hopen.append (ihb (by omega))).append hclose).append (ih (h := h) hd)
      by_cases hh : h = 0 <;> simpa [Content.render, Content.text, ht, hh] using hall

/-- A document between parts that show nothing is read as the text of its root element. -/
theorem textContent_document {prolog tail : Str} {root : Tag} (body : Content)
    (hp : Reads Reader.start prolog [] Reader.start)
    (ht : Reads Reader.start tail [] Reader.start) (hroot : root.name ≠ styleName) :
    textContent (prolog ++ (Content.element root body .nil).render ++ tail) = body.text := by
  have hopen := reads_open (d := 0) (h := 0) root
  have hclose := reads_close (d := 1) (h := 0) root.isName
  rw [if_neg hroot] at hopen hclose
  have hbody := reads_content body (d := 1) (h := 0) (by decide)
  have hall := (hp.append ((hopen.append hbody).append hclose)).append ht
  have hrun : Reads Reader.start (prolog ++ (Content.element root body .nil).render ++ tail)
      body.text Reader.start := by
    simpa [Content.render] using hall
  unfold textContent
  rw [hrun]

example : textContent "<?xml?>\n<a x=\"1>2\">1 &lt; 2<style>p</style><b/></a>".toList =
    "1 < 2".toList := by
  decide

end SystemCalls.Xml
