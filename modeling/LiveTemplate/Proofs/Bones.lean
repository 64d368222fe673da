import LiveTemplate.Proofs.Grammar
import Mathlib.Data.List.TakeWhile

/-!
# Bones of skeletons

The bones of a skeleton are its elements with their attributes and their nesting, without
the texts between them. Where the text between two tags holds no opening bracket, the
reader gets past it with the same bones. A start tag is read back with the attributes
that were written into it, and a closing tag finishes the element that is open.
-/
namespace LiveTemplate
open Text

namespace Node

mutual
/-- A node without the texts in it. -/
def bones : Node → List Node
  | .element tag attrs children => [.element tag attrs (bonesAll children)]
  | .text _ => []
  | .hole index => [.hole index]
termination_by structural n => n

def bonesAll : List Node → List Node
  | [] => []
  | n :: rest => n.bones ++ bonesAll rest
termination_by structural ns => ns
end

@[simp] theorem bonesAll_append (ns ms : List Node) :
    bonesAll (ns ++ ms) = bonesAll ns ++ bonesAll ms := by
  induction ns with
  | nil => rfl
  | cons n rest ih => simp [bonesAll, ih]

end Node

def OpenElement.bones (e : OpenElement) : OpenElement :=
  { e with children := Node.bonesAll e.children }

namespace Draft

/-- A draft without the texts in it. -/
def bones (d : Draft) : Draft :=
  { d with nodes := Node.bonesAll d.nodes, opened := d.opened.map OpenElement.bones }

/-- Nodes added one after the other. -/
def addAll (ns : List Node) (d : Draft) : Draft :=
  match d.opened with
  | [] => { d with nodes := d.nodes ++ ns }
  | e :: outer => { d with opened := { e with children := e.children ++ ns } :: outer }

variable {d d' : Draft}

theorem add_eq_addAll (node : Node) : d.add node = d.addAll [node] := rfl

@[simp] theorem addAll_nil : d.addAll [] = d := by
  obtain ⟨nodes, opened, mode⟩ := d
  cases opened <;> simp [addAll]

theorem addAll_addAll (ns ms : List Node) : (d.addAll ns).addAll ms = d.addAll (ns ++ ms) := by
  obtain ⟨nodes, opened, mode⟩ := d
  cases opened <;> simp [addAll]

@[simp] theorem addAll_mode (ns : List Node) : (d.addAll ns).mode = d.mode := by
  obtain ⟨nodes, opened, mode⟩ := d
  cases opened <;> rfl

theorem close_mode (count : Nat) : (d.close count).mode = d.mode := by
  induction count generalizing d with
  | zero => rfl
  | succ count ih =>
    obtain ⟨nodes, opened, mode⟩ := d
    cases opened with
    | nil => exact ih
    | cons e outer => exact ih.trans (addAll_mode [e.toNode])

theorem closeNamed_mode (name : String) : (d.closeNamed name).mode = d.mode := by
  unfold closeNamed
  split
  · rfl
  · exact close_mode _

theorem endTag_mode (e : OpenElement) (selfClosing : Bool) :
    (d.endTag e selfClosing).mode = .content := by
  unfold endTag
  split
  · rw [add_eq_addAll, addAll_mode]
  · rfl

theorem bones_addAll (ns : List Node) : (d.addAll ns).bones = d.bones.addAll (Node.bonesAll ns) := by
  obtain ⟨nodes, opened, mode⟩ := d
  cases opened <;> simp [addAll, bones, OpenElement.bones]

theorem bones_closeInnermost : d.closeInnermost.bones = d.bones.closeInnermost := by
  obtain ⟨nodes, opened, mode⟩ := d
  cases opened with
  | nil => rfl
  | cons e outer => exact bones_addAll [e.toNode]

theorem bones_close (count : Nat) : (d.close count).bones = d.bones.close count := by
  induction count generalizing d with
  | zero => rfl
  | succ count ih => rw [close, close, ih, bones_closeInnermost]

/-- Which element is finished is a matter of the tags alone. -/
theorem bones_closeNamed (name : String) : (d.closeNamed name).bones = d.bones.closeNamed name := by
  have hfind : d.bones.opened.findIdx? (fun e => sameIgnoringCase e.tag name) =
      d.opened.findIdx? fun e => sameIgnoringCase e.tag name := List.findIdx?_map ..
  rw [closeNamed, closeNamed, hfind]
  split
  · rfl
  · exact bones_close _

theorem closeNamed_innermost {nodes : List Node} {e : OpenElement} {outer : List OpenElement}
    {mode : Mode} : (⟨nodes, e :: outer, mode⟩ : Draft).closeNamed e.tag =
      (⟨nodes, outer, mode⟩ : Draft).addAll [e.toNode] := by
  have hfind : (e :: outer).findIdx? (fun o => sameIgnoringCase o.tag e.tag) = some 0 := by
    simp [List.findIdx?_cons, sameIgnoringCase]
  rw [closeNamed, hfind]
  rfl

/-! ### Texts between tags -/

variable {hasNext : Bool} {cs rest before : List Char}

@[simp] theorem readRun_nil (hasNext : Bool) (d : Draft) : d.readRun hasNext [] = .ok d := by
  rw [readRun, dif_pos rfl]

theorem readRun_step (hcs : cs ≠ []) (h : d.step hasNext cs = some (d', rest)) :
    d.readRun hasNext cs = d'.readRun hasNext rest := by
  rw [readRun, dif_neg hcs]
  split
  next hnone => simp [h] at hnone
  next heq =>
    rw [h] at heq
    cases heq
    rfl

theorem step_content (hmode : d.mode = .content) {token : Token.Content}
    (h : Token.Content.scan cs = (token, rest)) :
    d.step hasNext cs = some (d.takeContent token, rest) := by
  rw [step, hmode]
  simp [h]

/-- A text is no bone. -/
theorem takeText_bones (hmode : d.mode = .content) (run : List Char) :
    (d.takeContent (.text run)).mode = .content ∧ (d.takeContent (.text run)).bones = d.bones := by
  simp only [takeContent]
  split
  · exact ⟨hmode, rfl⟩
  · rw [add_eq_addAll]
    exact ⟨(addAll_mode _).trans hmode, by simp [bones_addAll, Node.bonesAll, Node.bones]⟩

end Draft

namespace Token

variable {before rest : List Char}

/-- A run is cut where it stops. -/
theorem span_append {p : Char → Bool} {body : List Char} (inside : ∀ c ∈ body, p c = true)
    (stop : ∀ c ∈ rest.head?, p c = false) :
    (body ++ rest).takeWhile p = body ∧ (body ++ rest).dropWhile p = rest := by
  rw [List.takeWhile_append_of_pos inside, List.dropWhile_append_of_pos inside]
  cases rest with
  | nil => simp
  | cons c rest => simp [stop c rfl]

namespace Content

theorem all_ne_open (h : '<' ∉ before) : ∀ c ∈ before, decide (c ≠ '<') = true := by
  rintro c hc
  rw [decide_eq_true_iff]
  rintro rfl
  exact h hc

/-- Without an opening bracket everything is text. -/
theorem scan_text (h : '<' ∉ before) : scan before = (.text before, []) := by
  obtain ⟨h1, h2⟩ := @span_append [] _ _ (all_ne_open h) (by simp)
  rw [List.append_nil] at h1 h2
  unfold scan
  split
  next run hrun =>
    exact absurd ((List.dropWhile_suffix _).subset (hrun ▸ List.mem_cons_self ..)) h
  next => rw [h1, h2]

/-- Up to an opening bracket everything is text, unless there are only blanks. -/
theorem scan_before (h : '<' ∉ before) (hblank : ¬∀ c ∈ before, isBlank c = true) :
    scan (before ++ '<' :: rest) = (.text before, '<' :: rest) := by
  obtain ⟨h1, h2⟩ := @span_append ('<' :: rest) _ _ (all_ne_open h) (by simp)
  have hdrop : dropBlanks (before ++ '<' :: rest) = dropBlanks before ++ '<' :: rest := by
    rw [dropBlanks, dropBlanks, List.dropWhile_append, if_neg]
    rwa [List.isEmpty_iff, List.dropWhile_eq_nil_iff]
  unfold scan
  split
  next run hrun =>
    rw [hdrop] at hrun
    cases hb : dropBlanks before with
    | nil => exact absurd (List.dropWhile_eq_nil_iff.1 hb) hblank
    | cons c cs =>
      rw [hb] at hrun
      obtain ⟨rfl, -⟩ := List.cons.inj hrun
      exact absurd ((List.dropWhile_suffix _).subset (hb ▸ List.mem_cons_self ..)) h
  next => rw [h1, h2]

theorem scan_blank (h : ∀ c ∈ before, isBlank c = true) {token : Content} {after : List Char}
    (hm : markup? rest = some (token, after)) : scan (before ++ '<' :: rest) = (token, after) := by
  have hdrop : dropBlanks (before ++ '<' :: rest) = '<' :: rest := by
    rw [dropBlanks, List.dropWhile_append_of_pos h]
    rfl
  rw [scan, hdrop]
  simp [hm]

end Content

end Token

namespace Draft

variable {d : Draft} {hasNext : Bool} {rest before : List Char}

/-- Blanks in front of an opening bracket go with what it begins. -/
theorem readRun_blanks (hmode : d.mode = .content) (hblank : ∀ c ∈ before, isBlank c = true)
    {token : Token.Content} {after : List Char}
    (hm : Token.Content.markup? rest = some (token, after)) :
    d.readRun hasNext (before ++ '<' :: rest) = (d.takeContent token).readRun hasNext after :=
  readRun_step (by simp) (step_content hmode (Token.Content.scan_blank hblank hm))

theorem readRun_bracket (hmode : d.mode = .content) {token : Token.Content} {after : List Char}
    (hm : Token.Content.markup? rest = some (token, after)) :
    d.readRun hasNext ('<' :: rest) = (d.takeContent token).readRun hasNext after :=
  @readRun_blanks d hasNext rest [] hmode (by simp) token after hm

/-- The reader gets past a text to what an opening bracket begins. -/
theorem readRun_markup (hmode : d.mode = .content) (h : '<' ∉ before) {token : Token.Content}
    {after : List Char} (hm : Token.Content.markup? rest = some (token, after)) :
    ∃ d' : Draft, d'.mode = .content ∧ d'.bones = d.bones ∧
      d.readRun hasNext (before ++ '<' :: rest) = (d'.takeContent token).readRun hasNext after := by
  by_cases hblank : ∀ c ∈ before, isBlank c = true
  · exact ⟨d, hmode, rfl, readRun_blanks hmode hblank hm⟩
  · obtain ⟨hmode', hbones⟩ := takeText_bones hmode before
    refine ⟨_, hmode', hbones, ?_⟩
    rw [readRun_step (by simp) (step_content hmode (Token.Content.scan_before h hblank))]
    exact readRun_bracket hmode' hm

/-- The reader gets past a text to the end. -/
theorem readRun_text (hmode : d.mode = .content) (h : '<' ∉ before) :
    ∃ d' : Draft, d'.mode = .content ∧ d'.bones = d.bones ∧ d.readRun hasNext before = .ok d' := by
  by_cases hnil : before = []
  · exact ⟨d, hmode, rfl, by rw [hnil, readRun_nil]⟩
  · obtain ⟨hmode', hbones⟩ := takeText_bones hmode before
    refine ⟨_, hmode', hbones, ?_⟩
    rw [readRun_step hnil (step_content hmode (Token.Content.scan_text h)), readRun_nil]

end Draft

/-! ### Tags -/

theorem Text.dropBlanks_append {blanks rest : List Char} (h : ∀ c ∈ blanks, isBlank c = true) :
    dropBlanks (blanks ++ rest) = dropBlanks rest := List.dropWhile_append_of_pos h

/-- At least one character of names, and no sigil. -/
def IsBareName (cs : List Char) : Prop := cs ≠ [] ∧ ∀ c ∈ cs, Token.isAttrNameChar c = true

theorem IsAttrName.ne_nil {cs : List Char} (h : IsAttrName cs) : cs ≠ [] := by
  obtain ⟨sigil, bare, rfl, -, -, hne, -⟩ := h
  simp [hne]

theorem IsBareName.isAttrName {cs : List Char} (h : IsBareName cs) : IsAttrName cs :=
  ⟨[], cs, rfl, by simp, by simp, h.1, h.2⟩

namespace Token

variable {name rest : List Char}

theorem isAttrNameChar_of_isTagNameChar {c : Char} (h : isTagNameChar c = true) :
    isAttrNameChar c = true := by
  simp_all [isTagNameChar, isAttrNameChar]

theorem isBlank_of_isQuote {c : Char} (h : isQuote c = true) : isBlank c = false := by
  simp only [isQuote, Bool.or_eq_true, beq_iff_eq] at h
  rcases h with rfl | rfl <;> decide

/-- No character of names parts names. -/
theorem isBlank_of_isAttrNameChar {c : Char} (h : isAttrNameChar c = true) : isBlank c = false := by
  by_contra hb
  rw [Bool.not_eq_false] at hb
  delta isAttrNameChar Char.isAlphanum Char.isAlpha Char.isUpper Char.isLower Char.isDigit at h
  simp only [isBlank, UInt32.le_iff_toNat_le, Char.toNat, Bool.or_eq_true, Bool.and_eq_true,
    decide_eq_true_eq, beq_iff_eq, Char.ext_iff, ← UInt32.toNat_inj] at h hb
  simp at h hb
  omega

theorem isSigil_of_isAttrNameChar {c : Char} (h : isAttrNameChar c = true) : isSigil c = false := by
  by_contra hs
  simp only [isSigil, Bool.not_eq_false, Bool.or_eq_true, beq_iff_eq] at hs
  rcases hs with (rfl | rfl) | rfl <;> simp [isAttrNameChar] at h

/-- A name stands where it starts. -/
theorem dropBlanks_name (h : IsBareName name) : dropBlanks (name ++ rest) = name ++ rest := by
  obtain ⟨c, cs, rfl⟩ := List.exists_cons_of_ne_nil h.1
  simp [dropBlanks, isBlank_of_isAttrNameChar (h.2 c (List.mem_cons_self ..))]

theorem IsTagName.bare (h : IsTagName name) : IsBareName name :=
  ⟨h.1, fun c hc => isAttrNameChar_of_isTagNameChar (h.2 c hc)⟩

/-- An opening bracket and the name of a tag begin a start tag. -/
theorem Content.markup?_openTag (h : IsTagName name) (stop : ∀ c ∈ rest.head?, isTagNameChar c = false) :
    Content.markup? (name ++ rest) = some (.openTag name, rest) := by
  obtain ⟨h1, h2⟩ := span_append h.2 stop
  have hdrop := @dropBlanks_name _ rest (IsTagName.bare h)
  have hopen : Content.openTag? (name ++ rest) = some (.openTag name, rest) := by
    simp only [Content.openTag?, hdrop, h1, h2, if_neg h.1]
  obtain ⟨c, cs, rfl⟩ := List.exists_cons_of_ne_nil h.1
  have hc := h.2 c (List.mem_cons_self ..)
  have hne : c ≠ '!' ∧ c ≠ '/' := by
    constructor <;> rintro rfl <;> simp [isTagNameChar] at hc
  have hclose : Content.closeTag? (c :: cs ++ rest) = none := by
    rw [Content.closeTag?, hdrop]
    simp [hne.2]
  have hdoctype : Content.doctype? (c :: cs ++ rest) = none := by
    simp [Content.doctype?, hne.1]
  have hcomment : Content.commentStart? (c :: cs ++ rest) = none := by
    simp [Content.commentStart?, hne.1]
  rw [Content.markup?, hdoctype, hcomment, hclose, hopen]
  rfl

theorem Content.markup?_closeTag (h : IsTagName name) :
    Content.markup? ('/' :: (name ++ '>' :: rest)) = some (.closeTag name, rest) := by
  obtain ⟨h1, h2⟩ := @span_append ('>' :: rest) _ _ h.2 (by simp [isTagNameChar])
  have hslash : dropBlanks ('/' :: (name ++ '>' :: rest)) = '/' :: (name ++ '>' :: rest) := rfl
  have hdrop := @dropBlanks_name _ ('>' :: rest) (IsTagName.bare h)
  have hend : dropBlanks ('>' :: rest) = '>' :: rest := rfl
  have hclose : Content.closeTag? ('/' :: (name ++ '>' :: rest)) = some (.closeTag name, rest) := by
    simp only [Content.closeTag?, hslash, hdrop, h1, h2, hend, if_neg h.1]
  rw [Content.markup?, hclose]
  rfl

theorem isBlank_of_isSigil {c : Char} (h : isSigil c = true) : isBlank c = false := by
  simp only [isSigil, Bool.or_eq_true, beq_iff_eq] at h
  rcases h with (rfl | rfl) | rfl <;> decide

/-- An attribute name is not empty, and no blank is in front of it. -/
theorem dropBlanks_attrName (h : IsAttrName name) : dropBlanks (name ++ rest) = name ++ rest := by
  obtain ⟨sigil, bare, rfl, -, hsigil, hne, hall⟩ := h
  cases sigil with
  | nil => exact dropBlanks_name ⟨hne, hall⟩
  | cons c cs => simp [dropBlanks, isBlank_of_isSigil (hsigil c (List.mem_cons_self ..))]

theorem Tag.name?_attrName (h : IsAttrName name) (stop : ∀ c ∈ rest.head?, isAttrNameChar c = false) :
    Tag.name? (name ++ rest) = some (.name name, rest) := by
  obtain ⟨sigil, bare, rfl, hlen, hsigil, hne, hall⟩ := h
  obtain ⟨h1, h2⟩ := span_append hall stop
  obtain ⟨b, bs, rfl⟩ := List.exists_cons_of_ne_nil hne
  have htake : ((sigil ++ b :: bs ++ rest).take 1).filter isSigil = sigil := by
    cases sigil with
    | nil => simp [isSigil_of_isAttrNameChar (hall b (List.mem_cons_self ..))]
    | cons c cs =>
      obtain rfl : cs = [] := by simpa using hlen
      simp [hsigil c (List.mem_cons_self ..)]
  have hdrop : (sigil ++ b :: bs ++ rest).drop sigil.length = b :: bs ++ rest := by simp
  simp only [Tag.name?, htake, hdrop, h1, h2, if_neg hne]

/-- A name in a start tag is read up to where it stops. -/
theorem Tag.scan?_attrName (h : IsAttrName name) (stop : ∀ c ∈ rest.head?, isAttrNameChar c = false) :
    Tag.scan? (name ++ rest) = some (.name name, rest) := by
  have hname := Tag.name?_attrName h stop
  obtain ⟨sigil, bare, rfl, hlen, hsigil, hne, hall⟩ := h
  obtain ⟨b, bs, rfl⟩ := List.exists_cons_of_ne_nil hne
  have hb : b ≠ '/' ∧ b ≠ '>' ∧ b ≠ '=' ∧ b ≠ '.' := by
    have := hall b (List.mem_cons_self ..)
    refine ⟨?_, ?_, ?_, ?_⟩ <;> rintro rfl <;> simp [isAttrNameChar] at this
  -- behind a sigil stands a character of names, so three dots never come first
  unfold Tag.scan?
  split
  all_goals first | exact hname | skip
  all_goals
    next heq =>
      cases sigil with
      | nil =>
        simp only [List.nil_append, List.cons_append, List.cons.injEq] at heq
        simp [heq.1] at hb
      | cons c cs =>
        obtain rfl : cs = [] := by simpa using hlen
        have hc := hsigil c (List.mem_cons_self ..)
        simp only [List.cons_append, List.nil_append, List.cons.injEq] at heq
        obtain ⟨rfl, heq⟩ := heq
        simp_all [isSigil]

/-- A text in quotes is read up to the quote that closes it. -/
theorem Value.scan?_quoted {quote : Char} {text : List Char} (hquote : isQuote quote = true)
    (h : quote ∉ text) :
    Value.scan? (quote :: (text ++ quote :: rest)) = some (.quoted text, rest) := by
  have all : ∀ c ∈ text, decide (c ≠ quote) = true := by
    rintro c hc
    rw [decide_eq_true_iff]
    rintro rfl
    exact h hc
  obtain ⟨h1, h2⟩ := @span_append (quote :: rest) _ _ all (by simp)
  have hquoted : Value.quoted? quote (text ++ quote :: rest) = some (.quoted text, rest) := by
    rw [Value.quoted?, h1, h2]
  rw [Value.scan?, if_pos hquote, hquoted]

end Token

end LiveTemplate
