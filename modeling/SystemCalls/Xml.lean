import Mathlib.Data.List.Basic

/-!
# Well-nested markup

Content is a tree of tags and character data, correct by construction: names are plain,
attribute values contain no double quote, and character data has no markup in it. A string is
well nested if it is the text of such a tree.
-/

namespace SystemCalls.Xml

abbrev Str := List Char

/-- Letters, digits and hyphens. -/
def IsName (s : Str) : Prop := s ≠ [] ∧ ∀ c ∈ s, c.isAlphanum ∨ c = '-'

instance (s : Str) : Decidable (IsName s) :=
  decidable_of_iff ((!s.isEmpty && s.all fun c => c.isAlphanum || c == '-') = true)
    (by simp [IsName])

/-- What an attribute value may be made of. -/
def Clean (s : Str) : Prop := ∀ c ∈ s, c ≠ '"' ∧ c ≠ '<' ∧ c ≠ '&'

instance (s : Str) : Decidable (Clean s) :=
  decidable_of_iff ((s.all fun c => c != '"' && c != '<' && c != '&') = true)
    (by simp [Clean, and_assoc])

/-- Text in which nothing looks like markup. -/
def Unmarked (s : Str) : Prop := ∀ c ∈ s, c ≠ '<' ∧ c ≠ '&'

instance (s : Str) : Decidable (Unmarked s) :=
  decidable_of_iff ((s.all fun c => c != '<' && c != '&') = true) (by simp [Unmarked])

/-- No `<`, and every `&` begins one of three entities. -/
inductive CharData : Str → Prop
  | nil : CharData []
  | char {c : Char} {s : Str} (hc : c ≠ '<' ∧ c ≠ '&') (h : CharData s) : CharData (c :: s)
  | amp {s : Str} (h : CharData s) : CharData ("&amp;".toList ++ s)
  | lt {s : Str} (h : CharData s) : CharData ("&lt;".toList ++ s)
  | gt {s : Str} (h : CharData s) : CharData ("&gt;".toList ++ s)

structure Attr where
  name : Str
  value : Str
  isName : IsName name
  clean : Clean value

structure Tag where
  name : Str
  attrs : List Attr
  isName : IsName name

inductive Content
  | nil
  | chars (s : Str) (h : CharData s) (rest : Content)
  /-- A tag that closes itself. -/
  | empty (t : Tag) (rest : Content)
  | element (t : Tag) (body rest : Content)

def Attr.render (a : Attr) : Str :=
  " ".toList ++ a.name ++ "=\"".toList ++ a.value ++ "\"".toList

def Tag.render (t : Tag) : Str := t.name ++ t.attrs.flatMap Attr.render

namespace Content

def render : Content → Str
  | nil => []
  | chars s _ rest => s ++ rest.render
  | empty t rest => "<".toList ++ t.render ++ "/>".toList ++ rest.render
  | element t body rest =>
    "<".toList ++ t.render ++ ">".toList ++ body.render ++ "</".toList ++ t.name ++ ">".toList ++
      rest.render

/-- All tags, at every depth. -/
def tags : Content → List Tag
  | nil => []
  | chars _ _ rest => rest.tags
  | empty t rest => t :: rest.tags
  | element t body rest => t :: (body.tags ++ rest.tags)

def append : Content → Content → Content
  | nil, c => c
  | chars s h rest, c => chars s h (rest.append c)
  | empty t rest, c => empty t (rest.append c)
  | element t body rest, c => element t body (rest.append c)

theorem render_append (c d : Content) : (c.append d).render = c.render ++ d.render := by
  induction c with
  | nil => rfl
  | chars s h rest ih | empty t rest ih => simp [append, render, ih]
  | element t body rest _ ih => simp [append, render, ih]

theorem tags_append (c d : Content) : (c.append d).tags = c.tags ++ d.tags := by
  induction c with
  | nil => rfl
  | chars s h rest ih | empty t rest ih => simp [append, tags, ih]
  | element t body rest _ ih => simp [append, tags, ih]

end Content

theorem Unmarked.charData {s : Str} (h : Unmarked s) : CharData s := by
  induction s with
  | nil => exact .nil
  | cons c s ih => exact .char (h c (by simp)) (ih fun d hd => h d (by simp [hd]))

theorem Unmarked.append {s s' : Str} (h : Unmarked s) (h' : Unmarked s') :
    Unmarked (s ++ s') := by
  intro c hc
  exact (List.mem_append.mp hc).elim (h c) (h' c)

theorem Clean.append {s s' : Str} (h : Clean s) (h' : Clean s') : Clean (s ++ s') := by
  intro c hc
  exact (List.mem_append.mp hc).elim (h c) (h' c)

end SystemCalls.Xml
