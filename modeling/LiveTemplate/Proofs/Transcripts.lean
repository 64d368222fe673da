import LiveTemplate.Proofs.Bones

/-!
# Transcripts

A transcript lists what is recognised in the source, in the order in which it stands there:
start tags with their attributes, closing tags, texts and holes. It knows nothing of nesting.
A skeleton that is read, walked from the top and from left to right, is its transcript again
without the closing tags. So however elements are closed, and whichever are not, nothing is
lost or doubled and nothing changes its place. Every hole is in the transcript once.
-/
namespace LiveTemplate
open Text

/-- What is recognised in the source. A start tag comes with its attributes as they are
written, a name as often as it is written. -/
inductive Piece where
  | startTag (tag : String) (written : List (String × AttrValue))
  | closingTag (name : String)
  | text (data : String)
  | hole (index : Nat)
  /-- A hole in a comment. -/
  | dropped (index : Nat)
deriving DecidableEq, Repr

namespace Piece

/-- The node that a piece makes, with nothing in it yet. An attribute that is written again
keeps its place and takes the last value. -/
def node? : Piece → Option Node
  | .startTag tag written => some (.element tag (Entries.ofList written) [])
  | .text data => some (.text data)
  | .hole index => some (.hole index)
  | .closingTag _ => none
  | .dropped _ => none

def holes : Piece → List Nat
  | .startTag _ written => attrHoles written
  | .hole index => [index]
  | .dropped index => [index]
  | .closingTag _ => []
  | .text _ => []

end Piece

abbrev Transcript := List Piece

namespace Transcript

/-- The nodes that the pieces make, in order. -/
def nodes (seen : Transcript) : List Node := seen.filterMap Piece.node?

/-- The holes of all pieces, in order. -/
def holes (seen : Transcript) : List Nat := seen.flatMap Piece.holes

/-- Attributes are written into a start tag that was recognised last. -/
def write (attrs : List (String × AttrValue)) : Transcript → Transcript
  | [] => []
  | p :: q :: rest => p :: write attrs (q :: rest)
  | [.startTag tag written] => [.startTag tag (written ++ attrs)]
  | [p] => [p]

end Transcript

/-! ### What the reader recognises -/

namespace Draft

/-- What a token among content adds. Text counts as it is trimmed, if anything is left. -/
def seenContent (seen : Transcript) : Token.Content → Transcript
  | .doctype => seen
  | .commentStart => seen
  | .closeTag name => seen ++ [.closingTag (String.ofList name)]
  | .openTag name => seen ++ [.startTag (String.ofList name) []]
  | .text run =>
      let data := trimLineBreaks run
      if data = [] then seen else seen ++ [.text (String.ofList data)]

/-- An attribute that stayed without an equals sign. -/
def valueless : Option Pending → List (String × AttrValue)
  | some ⟨name, .named⟩ => [(name, .literal "")]
  | _ => []

/-- The attribute that is complete with the next token of a start tag. One without an equals
sign is so with the first token that is none. -/
def completed (pending : Option Pending) (input : List Char) : List (String × AttrValue) :=
  match pending with
  | some ⟨name, .valueDue⟩ =>
      match Token.Value.scan? input with
      | some (.quoted text, _) => [(name, .literal (String.ofList text))]
      | some (.unquoted text, _) => [(name, .literal (String.ofList text))]
      | some (.openQuote _, _) => []
      | none => [(name, .literal "")]
  | _ =>
      match Token.Tag.scan? input with
      | some (.equals, _) => []
      | _ => valueless pending

/-- What the next token adds. -/
def seenStep (d : Draft) (cs : List Char) (seen : Transcript) : Transcript :=
  match d.mode with
  | .comment => seen
  | .content => seenContent seen (Token.Content.scan cs).1
  | .tag _ pending =>
      if dropBlanks cs = [] then seen else seen.write (completed pending (dropBlanks cs))

/-- What a run adds, as far as it can be read. -/
def seenRun (hasNext : Bool) (d : Draft) (cs : List Char) (seen : Transcript) : Transcript :=
  if _hcs : cs = [] then seen
  else
    match _hstep : step hasNext d cs with
    | none => seen
    | some (d', rest) => seenRun hasNext d' rest (d.seenStep cs seen)
termination_by cs.length
decreasing_by exact step_length_lt _hcs _hstep

/-- What the hole of that index adds. -/
def seenHole (index : Nat) (d : Draft) (seen : Transcript) : Transcript :=
  match d.mode with
  | .comment => seen ++ [.dropped index]
  | .content => seen ++ [.hole index]
  | .tag _ pending => seen.write (pending.toList.map fun p => (p.name, .hole index))

/-- What the end of the input adds. -/
def seenEnd (d : Draft) (seen : Transcript) : Transcript :=
  match d.mode with
  | .tag _ pending => seen.write (valueless pending)
  | _ => seen

end Draft

namespace Skeleton

/-- What fragments add that are read from the given index on. -/
def seenFragments (index : Nat) (awaited : Option (Nat × Char)) (d : Draft) (seen : Transcript) :
    List String → Transcript
  | [] => d.seenEnd seen
  | fragment :: rest =>
      match behindQuote awaited fragment with
      | .error _ => seen
      | .ok run =>
          let seen := d.seenRun (!rest.isEmpty) run seen
          match d.readRun (!rest.isEmpty) run with
          | .error _ => seen
          | .ok d =>
              if rest.isEmpty then d.seenEnd seen
              else
                match d.takeHole index with
                | none => seen
                | some (d', quote) =>
                    seenFragments (index + 1) (quote.map (index, ·)) d' (d.seenHole index seen) rest

/-- All that is recognised in the fragments, with a hole between any two. -/
def transcript (fragments : List String) : Transcript := seenFragments 0 none {} [] fragments

end Skeleton

/-! ### Nodes in the order of the source -/

namespace Node

/-- A node without the nodes in it. -/
def alone : Node → Node
  | .element tag attrs _ => .element tag attrs []
  | .text data => .text data
  | .hole index => .hole index

mutual
/-- A node and all nodes in it, each before those in it. -/
def preorder : Node → List Node
  | .element tag attrs children => .element tag attrs children :: preorderAll children
  | .text data => [.text data]
  | .hole index => [.hole index]
termination_by structural n => n

def preorderAll : List Node → List Node
  | [] => []
  | n :: rest => n.preorder ++ preorderAll rest
termination_by structural ns => ns
end

@[simp] theorem preorderAll_nil : preorderAll [] = [] := rfl

@[simp] theorem preorderAll_cons (n : Node) (rest : List Node) :
    preorderAll (n :: rest) = n.preorder ++ preorderAll rest := rfl

@[simp] theorem preorderAll_append (ns ms : List Node) :
    preorderAll (ns ++ ms) = preorderAll ns ++ preorderAll ms := by
  induction ns with
  | nil => rfl
  | cons n rest ih => simp [ih]

/-- The nodes in order, each alone. -/
def inOrder (ns : List Node) : List Node := (preorderAll ns).map alone

@[simp] theorem inOrder_nil : inOrder [] = [] := rfl

@[simp] theorem inOrder_append (ns ms : List Node) :
    inOrder (ns ++ ms) = inOrder ns ++ inOrder ms := by
  simp [inOrder]

theorem inOrder_element (tag : String) (attrs : List (String × AttrValue)) (children : List Node) :
    inOrder [.element tag attrs children] = .element tag attrs [] :: inOrder children := by
  simp [inOrder, preorder, alone]

end Node

namespace Draft

/-- An open element and what it has so far. -/
def elementOrder (e : OpenElement) : List Node :=
  .element e.tag e.attrs [] :: Node.inOrder e.children

/-- The nodes of a draft in the order of the source. What is open stands behind what is
finished, the outermost first. The start tag that is being read is left out. -/
def order (d : Draft) : List Node :=
  Node.inOrder d.nodes ++ d.opened.reverse.flatMap elementOrder

variable {d d' : Draft} {e : OpenElement} {hasNext : Bool} {cs rest : List Char}

theorem order_add (node : Node) : (d.add node).order = d.order ++ Node.inOrder [node] := by
  obtain ⟨nodes, opened, mode⟩ := d
  cases opened with
  | nil => simp [add, order]
  | cons e outer => simp [add, order, elementOrder]

/-- Finishing an element moves none of its nodes. -/
theorem order_closeInnermost : d.closeInnermost.order = d.order := by
  obtain ⟨nodes, opened, mode⟩ := d
  cases opened with
  | nil => rfl
  | cons e outer =>
    have hnode : Node.inOrder [e.toNode] = elementOrder e := Node.inOrder_element ..
    rw [closeInnermost, order_add, hnode]
    simp [order]

theorem order_close (count : Nat) : (d.close count).order = d.order := by
  induction count generalizing d with
  | zero => rfl
  | succ count ih => rw [close, ih, order_closeInnermost]

theorem order_closeNamed (name : String) : (d.closeNamed name).order = d.order := by
  unfold closeNamed
  split
  · rfl
  · exact order_close _

/-- Whether the element is finished or opened, it comes last. -/
theorem order_endTag (he : e.children = []) (selfClosing : Bool) :
    (d.endTag e selfClosing).order = d.order ++ [.element e.tag e.attrs []] := by
  have hnode : Node.inOrder [e.toNode] = [.element e.tag e.attrs []] := by
    rw [OpenElement.toNode, Node.inOrder_element, he, Node.inOrder_nil]
  unfold endTag
  split
  · rw [order_add, hnode]
    rfl
  · simp [order, elementOrder, he]

theorem length_opened_close (count : Nat) :
    (d.close count).opened.length = d.opened.length - count := by
  induction count generalizing d with
  | zero => rfl
  | succ count ih =>
    have hinner : d.closeInnermost.opened.length = d.opened.length - 1 := by
      obtain ⟨nodes, opened, mode⟩ := d
      rcases opened with _ | ⟨e, _ | ⟨o, outer⟩⟩ <;> simp [closeInnermost, add]
    rw [close, ih, hinner]
    omega

end Draft

/-! ### The transcript tells the draft -/

namespace Transcript
variable {seen before : Transcript} {tag : String} {written : List (String × AttrValue)}

theorem nodes_append (seen more : Transcript) : (seen ++ more).nodes = seen.nodes ++ more.nodes :=
  List.filterMap_append ..

theorem write_startTag (attrs : List (String × AttrValue)) :
    write attrs (before ++ [.startTag tag written]) =
      before ++ [.startTag tag (written ++ attrs)] := by
  induction before with
  | nil => rfl
  | cons p rest ih =>
    cases rest with
    | nil => rfl
    | cons q rest => exact congrArg (p :: ·) ih

/-- Literals bring no hole. -/
theorem holes_write {attrs : List (String × AttrValue)} (h : attrHoles attrs = [])
    (seen : Transcript) :
    (seen.write attrs).holes = seen.holes := by
  induction seen with
  | nil => rfl
  | cons p rest ih =>
    cases rest with
    | nil => cases p <;> simp [write, holes, Piece.holes, attrHoles_append, h]
    | cons q rest =>
      simp only [write, holes, List.flatMap_cons] at ih ⊢
      rw [ih]

end Transcript

namespace Draft
open Transcript

variable {d d' : Draft} {e : OpenElement} {hasNext : Bool} {cs rest : List Char} {seen : Transcript}

/-- The pieces make the nodes of the draft. In a start tag the last piece is that tag. -/
inductive Told : Transcript → Draft → Prop
  | outside {seen : Transcript} {d : Draft} (hmode : ∀ e pending, d.mode ≠ .tag e pending)
      (h : seen.nodes = d.order) : Told seen d
  | inTag {before : Transcript} {d : Draft} {tag : String} {written : List (String × AttrValue)}
      {pending : Option Pending} (hmode : d.mode = .tag ⟨tag, Entries.ofList written, []⟩ pending)
      (h : before.nodes = d.order) : Told (before ++ [.startTag tag written]) d

theorem Told.ofContent (hmode : d.mode = .content) (h : seen.nodes = d.order) : Told seen d :=
  .outside (fun e pending heq => by simp [hmode] at heq) h

theorem Told.order (told : Told seen d) (hmode : ∀ e pending, d.mode ≠ .tag e pending) :
    seen.nodes = d.order := by
  cases told with
  | outside _ h => exact h
  | inTag h => exact absurd h (hmode _ _)

/-- In a start tag the last piece is split off. -/
theorem Told.tag {pending : Option Pending} (told : Told seen d) (hmode : d.mode = .tag e pending) :
    ∃ (before : Transcript) (written : List (String × AttrValue)),
      seen = before ++ [.startTag e.tag written] ∧ before.nodes = d.order ∧
        e = ⟨e.tag, Entries.ofList written, []⟩ := by
  cases told with
  | outside h => exact absurd hmode (h _ _)
  | inTag h hnodes =>
    obtain ⟨rfl, -⟩ := Mode.tag.inj (h.symm.trans hmode)
    exact ⟨_, _, rfl, hnodes, rfl⟩

theorem ofList_append (written more : List (String × AttrValue)) :
    Entries.ofList (written ++ more) =
      more.foldl (fun entries a => Entries.put a.1 a.2 entries) (Entries.ofList written) :=
  List.foldl_append ..

/-- What is still without a value is the last attribute. -/
theorem settle_ofList (tag : String) (written : List (String × AttrValue))
    (pending : Option Pending) :
    settle ⟨tag, Entries.ofList written, []⟩ pending =
      ⟨tag, Entries.ofList (written ++ valueless pending), []⟩ := by
  unfold settle valueless
  split
  · rw [ofList_append]
    rfl
  · simp

section
variable {before : Transcript} {tag name : String} {written : List (String × AttrValue)}
  {pending : Option Pending}

/-- Attributes are bound to the element as they are written into its start tag. -/
theorem Told.inTag_write (h : before.nodes = d.order) (attrs : List (String × AttrValue))
    (pending : Option Pending) :
    Told (write attrs (before ++ [.startTag tag written]))
      (d.inTag ⟨tag, Entries.ofList (written ++ attrs), []⟩ pending) := by
  rw [write_startTag]
  exact .inTag rfl h

theorem Told.endTag_write (h : before.nodes = d.order) (attrs : List (String × AttrValue))
    (selfClosing : Bool) :
    Told (write attrs (before ++ [.startTag tag written]))
      (d.endTag ⟨tag, Entries.ofList (written ++ attrs), []⟩ selfClosing) := by
  rw [write_startTag]
  refine .ofContent (endTag_mode _ selfClosing) ?_
  rw [nodes_append, h, order_endTag rfl]
  rfl

/-- A value, or the end of the tag where one is due. -/
theorem Told.stepValue (h : before.nodes = d.order)
    (hs : Draft.stepValue hasNext ⟨tag, Entries.ofList written, []⟩ name d cs = some (d', rest)) :
    Told (write (completed (some ⟨name, .valueDue⟩) cs) (before ++ [.startTag tag written]))
      d' := by
  have bound : ∀ text, (⟨tag, Entries.ofList written, []⟩ : OpenElement).bind name (.literal text) =
      ⟨tag, Entries.ofList (written ++ [(name, .literal text)]), []⟩ := by
    intro text
    rw [ofList_append]
    rfl
  have due : completed (some ⟨name, .valueDue⟩) cs =
      match Token.Value.scan? cs with
      | some (.quoted text, _) => [(name, .literal (String.ofList text))]
      | some (.unquoted text, _) => [(name, .literal (String.ofList text))]
      | some (.openQuote _, _) => []
      | none => [(name, .literal "")] := rfl
  unfold Draft.stepValue at hs
  simp only [bound] at hs
  split at hs
  next hscan =>
    cases hs
    rw [due, hscan]
    exact .inTag_write h _ _
  next hscan =>
    cases hs
    rw [due, hscan]
    exact .inTag_write h _ _
  next hscan =>
    split at hs <;> try contradiction
    cases hs
    rw [due, hscan]
    simpa using Told.inTag_write h [] _
  next hscan =>
    split at hs <;> try contradiction
    cases hs
    rw [due, hscan]
    exact .endTag_write h _ _

/-- A token where a name may stand. -/
theorem Told.stepName (h : before.nodes = d.order)
    (hpending : ∀ name, pending ≠ some ⟨name, .valueDue⟩)
    (hs : Draft.stepName hasNext ⟨tag, Entries.ofList written, []⟩ pending d cs = some (d', rest)) :
    Told (write (completed pending cs) (before ++ [.startTag tag written])) d' := by
  have hcompleted : completed pending cs =
      match Token.Tag.scan? cs with
      | some (.equals, _) => []
      | _ => valueless pending := by
    unfold completed
    split
    next name => exact absurd rfl (hpending name)
    next => rfl
  rw [hcompleted]
  unfold Draft.stepName at hs
  simp only [settle_ofList] at hs
  split at hs <;> try contradiction
  next hscan =>
    cases hs
    simp only [hscan]
    exact .endTag_write h _ _
  next hscan =>
    split at hs <;> try contradiction
    cases hs
    simp only [hscan]
    simpa using Told.inTag_write h [] _
  next hscan =>
    split at hs <;> try contradiction
    cases hs
    simp only [hscan]
    exact .inTag_write h _ _
  next hscan =>
    cases hs
    simp only [hscan]
    exact .inTag_write h _ _

end

theorem Told.takeContent (told : Told seen d) (hmode : d.mode = .content) (token : Token.Content) :
    Told (seenContent seen token) (d.takeContent token) := by
  have h := told.order fun e pending heq => by simp [hmode] at heq
  cases token with
  | doctype => exact told
  | commentStart => exact .outside (by simp [Draft.takeContent]) h
  | closeTag name =>
    refine .ofContent ((closeNamed_mode _).trans hmode) ?_
    rw [Draft.takeContent, order_closeNamed, ← h, seenContent, nodes_append]
    exact List.append_nil _
  | openTag name => exact .inTag rfl h
  | text run =>
    simp only [seenContent, Draft.takeContent]
    split
    · exact told
    · refine .ofContent ((addAll_mode _).trans hmode) ?_
      rw [nodes_append, order_add, h]
      rfl

/-- A token that is read is told by what it adds. -/
theorem Told.step (told : Told seen d) (hs : Draft.step hasNext d cs = some (d', rest)) :
    Told (d.seenStep cs seen) d' := by
  unfold Draft.step at hs
  unfold seenStep
  split at hs
  next hmode =>
    have h := told.order fun e pending heq => by simp [hmode] at heq
    simp only [hmode]
    split at hs <;> cases hs
    · exact .ofContent rfl h
    · exact told
  next e pending hmode =>
    obtain ⟨before, written, rfl, h, he⟩ := told.tag hmode
    simp only [hmode]
    simp only [stepTag] at hs
    split at hs
    next hblank =>
      cases hs
      rw [if_pos hblank]
      exact told
    next hblank =>
      rw [if_neg hblank]
      rw [he] at hs
      split at hs
      next => exact .stepValue h hs
      next hpending => exact .stepName h (fun name heq => hpending name heq) hs
  next hmode =>
    cases hs
    simp only [hmode]
    exact told.takeContent hmode _

theorem seenRun_step (hcs : cs ≠ []) (h : d.step hasNext cs = some (d', rest)) :
    d.seenRun hasNext cs seen = d'.seenRun hasNext rest (d.seenStep cs seen) := by
  rw [seenRun, dif_neg hcs]
  split
  next hnone => simp [h] at hnone
  next heq =>
    rw [h] at heq
    cases heq
    rfl

theorem seenRun_stuck (hcs : cs ≠ []) (h : d.step hasNext cs = none) :
    d.seenRun hasNext cs seen = seen := by
  rw [seenRun, dif_neg hcs]
  split
  next => rfl
  next heq => simp [h] at heq

theorem Told.readRun (told : Told seen d) (hr : Draft.readRun hasNext d cs = .ok d') :
    Told (d.seenRun hasNext cs seen) d' := by
  fun_induction Draft.readRun hasNext d cs generalizing seen with
  | case1 =>
    cases hr
    rw [seenRun, dif_pos rfl]
    exact told
  | case2 => contradiction
  | case3 d cs hcs d₁ rest hstep ih =>
    rw [seenRun_step hcs hstep]
    exact ih (told.step hstep) hr

/-- A hole is told where it finds its place. -/
theorem Told.takeHole (told : Told seen d) {index : Nat} {quote : Option Char}
    (h : d.takeHole index = some (d', quote)) : Told (d.seenHole index seen) d' := by
  have bound : ∀ {e : OpenElement} {name : String} {pending : Option Pending},
      d.mode = .tag e pending →
        Told (write [(name, .hole index)] seen) (d.inTag (e.bind name (.hole index)) none) := by
    intro e name pending hmode
    obtain ⟨before, written, rfl, horder, he⟩ := told.tag hmode
    have hbind : e.bind name (.hole index) =
        ⟨e.tag, Entries.ofList (written ++ [(name, .hole index)]), []⟩ := by
      rw [ofList_append, he]
      rfl
    rw [hbind]
    exact .inTag_write horder _ _
  unfold seenHole
  unfold Draft.takeHole at h
  split at h
  next hmode =>
    cases h
    have horder := told.order fun e pending heq => by simp [hmode] at heq
    simp only [hmode]
    refine .outside (fun e pending heq => by simp [hmode] at heq) ?_
    rw [nodes_append, ← horder]
    exact List.append_nil _
  next hmode =>
    cases h
    have horder := told.order fun e pending heq => by simp [hmode] at heq
    simp only [hmode]
    refine .ofContent ((addAll_mode _).trans hmode) ?_
    rw [nodes_append, order_add, horder]
    rfl
  next hmode =>
    cases h
    simp only [hmode]
    exact bound hmode
  next hmode =>
    cases h
    simp only [hmode]
    exact bound hmode
  next => contradiction

/-- What is finished at the end of the input is what has been told. -/
theorem Told.finish (told : Told seen d) : (d.seenEnd seen).nodes = Node.inOrder d.finish := by
  have closed : ∀ d : Draft, Node.inOrder (d.close d.opened.length).nodes = d.order := by
    intro d
    have hopened : (d.close d.opened.length).opened = [] := by
      rw [← List.length_eq_zero_iff, length_opened_close]
      omega
    have horder := @order_close d d.opened.length
    rw [Draft.order, hopened] at horder
    simpa using horder
  by_cases htag : ∃ e pending, d.mode = .tag e pending
  · obtain ⟨e, pending, hmode⟩ := htag
    obtain ⟨before, written, rfl, horder, he⟩ := told.tag hmode
    have hsettle : settle e pending =
        ⟨e.tag, Entries.ofList (written ++ valueless pending), []⟩ := by
      rw [he, settle_ofList]
    simp only [Draft.finish, seenEnd, hmode, hsettle]
    rw [closed, write_startTag, nodes_append, horder]
    simp [Draft.order, elementOrder, Transcript.nodes, Piece.node?]
  · have hmode : ∀ e pending, d.mode ≠ .tag e pending := fun e pending heq => htag ⟨e, pending, heq⟩
    have hend : d.seenEnd seen = seen := by
      unfold seenEnd
      split
      next heq => exact absurd heq (hmode _ _)
      next => rfl
    have hfinish : d.finish = (d.close d.opened.length).nodes := by
      unfold Draft.finish
      split
      next heq => exact absurd heq (hmode _ _)
      next => rfl
    rw [hend, hfinish, closed, told.order hmode]

/-! ### The holes of a transcript -/

theorem attrHoles_valueless (pending : Option Pending) : attrHoles (valueless pending) = [] := by
  unfold valueless
  split <;> rfl

theorem attrHoles_completed (pending : Option Pending) (input : List Char) :
    attrHoles (completed pending input) = [] := by
  unfold completed
  split
  · split <;> rfl
  · split
    · rfl
    · exact attrHoles_valueless pending

theorem holes_seenContent (token : Token.Content) :
    (seenContent seen token).holes = seen.holes := by
  cases token with
  | doctype => rfl
  | commentStart => rfl
  | closeTag name => simp [seenContent, Transcript.holes, Piece.holes]
  | openTag name => simp [seenContent, Transcript.holes, Piece.holes, attrHoles]
  | text run =>
    simp only [seenContent]
    split <;> simp [Transcript.holes, Piece.holes]

/-- A token brings no hole. -/
theorem holes_seenStep : (d.seenStep cs seen).holes = seen.holes := by
  unfold seenStep
  split
  · rfl
  · exact holes_seenContent _
  · split
    · rfl
    · exact holes_write (attrHoles_completed _ _) seen

theorem holes_seenRun : (d.seenRun hasNext cs seen).holes = seen.holes := by
  fun_induction seenRun hasNext d cs seen with
  | case1 => rfl
  | case2 => rfl
  | case3 d cs seen hcs d₁ rest hstep ih => rw [ih, holes_seenStep]

theorem holes_seenEnd : (d.seenEnd seen).holes = seen.holes := by
  unfold seenEnd
  split
  · exact holes_write (attrHoles_valueless _) seen
  · rfl

/-- A hole that finds its place comes last. -/
theorem Told.holes_takeHole (told : Told seen d) {index : Nat} {quote : Option Char}
    (h : d.takeHole index = some (d', quote)) :
    (d.seenHole index seen).holes = seen.holes ++ [index] := by
  have bound : ∀ {e : OpenElement} {name : String} {pending : Option Pending},
      d.mode = .tag e pending →
        (write [(name, .hole index)] seen).holes = seen.holes ++ [index] := by
    intro e name pending hmode
    obtain ⟨before, written, rfl, -, -⟩ := told.tag hmode
    rw [write_startTag]
    simp [Transcript.holes, Piece.holes, attrHoles]
  unfold seenHole
  unfold Draft.takeHole at h
  split at h
  next hmode => simp [hmode, Transcript.holes, Piece.holes]
  next hmode => simp [hmode, Transcript.holes, Piece.holes]
  next hmode =>
    simp only [hmode]
    exact bound hmode
  next hmode =>
    simp only [hmode]
    exact bound hmode
  next => contradiction

end Draft

namespace Skeleton
open Draft

/-- Fragments that are read are told in order, and so are the holes between them. -/
theorem readFragments_told {fragments : List String} {index : Nat} {awaited : Option (Nat × Char)}
    {d d' : Draft} {seen : Transcript} (told : Told seen d) (holes : seen.holes = List.range index)
    (h : readFragments index awaited d fragments = .ok d') :
    (seenFragments index awaited d seen fragments).nodes = Node.inOrder d'.finish ∧
      (seenFragments index awaited d seen fragments).holes =
        List.range (index + (fragments.length - 1)) := by
  induction fragments generalizing index awaited d seen with
  | nil =>
    cases h
    constructor
    · exact told.finish
    · exact holes_seenEnd.trans holes
  | cons fragment rest ih =>
    obtain ⟨run, d₁, hrun, hread, hrest⟩ := readFragments_cons h
    have told₁ := told.readRun hread
    have holes₁ : (d.seenRun (!rest.isEmpty) run seen).holes = List.range index :=
      holes_seenRun.trans holes
    simp only [seenFragments, hrun, hread]
    rcases hrest with ⟨rfl, rfl⟩ | ⟨hne, d₂, quote, htake, hnext⟩
    · constructor
      · exact told₁.finish
      · exact holes_seenEnd.trans holes₁
    · have hlength : 0 < rest.length := List.length_pos_iff.2 hne
      have hindex : index + ((fragment :: rest).length - 1) = index + 1 + (rest.length - 1) := by
        simp only [List.length_cons]
        omega
      rw [if_neg (by simpa using hne), htake, hindex]
      apply ih (told₁.takeHole htake)
      · rw [told₁.holes_takeHole htake, holes₁, List.range_succ]
      · exact hnext

/-- A skeleton that is read has the nodes of its transcript in order, and every hole that was
written is in the transcript once. -/
theorem parse_told {fragments : List String} {s : Skeleton} (h : parse fragments = .ok s) :
    (transcript fragments).nodes = Node.inOrder s.nodes ∧
      (transcript fragments).holes = List.range s.holes ∧ s.holes = fragments.length - 1 := by
  obtain ⟨d, hread, rfl⟩ := parse_ok h
  have told : Told [] {} := .ofContent rfl rfl
  obtain ⟨hnodes, hholes⟩ := readFragments_told told rfl hread
  rw [Nat.zero_add] at hholes
  exact ⟨hnodes, hholes, rfl⟩

end Skeleton

/-! ### The texts of a transcript -/

section Texts

/-- Something holds of whatever is left of a text that is scanned, if anything is left. -/
def OfScannedText (P : String → Prop) : Prop :=
  ∀ cs run rest, Token.Content.scan cs = (.text run, rest) → trimLineBreaks run ≠ [] →
    P (String.ofList (trimLineBreaks run))

namespace Transcript

/-- It holds of all texts that are told. -/
def Texts (P : String → Prop) (seen : Transcript) : Prop := ∀ data, Piece.text data ∈ seen → P data

variable {P : String → Prop} {seen : Transcript} {d : Draft} {hasNext : Bool} {cs : List Char}

theorem text_mem_write {attrs : List (String × AttrValue)} {data : String}
    (h : Piece.text data ∈ seen.write attrs) : Piece.text data ∈ seen := by
  induction seen with
  | nil => exact h
  | cons p rest ih =>
    cases rest with
    | nil => cases p <;> simp_all [write]
    | cons q rest =>
      rcases List.mem_cons.1 h with h | h
      · exact h ▸ List.mem_cons_self ..
      · exact List.mem_cons_of_mem _ (ih h)

theorem Texts.write (h : seen.Texts P) (attrs : List (String × AttrValue)) :
    (seen.write attrs).Texts P := fun data hmem => h data (text_mem_write hmem)

theorem Texts.append_one (h : seen.Texts P) {p : Piece} (hp : ∀ data, p = .text data → P data) :
    Texts P (seen ++ [p]) := by
  intro data hmem
  rcases List.mem_append.1 hmem with hmem | hmem
  · exact h data hmem
  · exact hp data (List.mem_singleton.1 hmem).symm

theorem Texts.seenStep (scanned : OfScannedText P) (h : seen.Texts P) :
    (d.seenStep cs seen).Texts P := by
  unfold Draft.seenStep
  split
  · exact h
  · cases htoken : Token.Content.scan cs with
    | mk token rest =>
      cases token with
      | doctype => exact h
      | commentStart => exact h
      | closeTag name => exact h.append_one (by simp)
      | openTag name => exact h.append_one (by simp)
      | text run =>
        simp only [Draft.seenContent]
        split
        · exact h
        next hleft =>
          refine h.append_one fun data heq => ?_
          obtain rfl := Piece.text.inj heq
          exact scanned cs run rest htoken hleft
  · split
    · exact h
    · exact h.write _

theorem Texts.seenRun (scanned : OfScannedText P) (h : seen.Texts P) (d : Draft) (hasNext : Bool)
    (cs : List Char) : (d.seenRun hasNext cs seen).Texts P := by
  fun_induction Draft.seenRun hasNext d cs seen with
  | case1 => exact h
  | case2 => exact h
  | case3 d cs seen hcs d₁ rest hstep ih => exact ih (h.seenStep scanned)

theorem Texts.seenHole (h : seen.Texts P) (index : Nat) : (d.seenHole index seen).Texts P := by
  unfold Draft.seenHole
  split
  · exact h.append_one (by simp)
  · exact h.append_one (by simp)
  · exact h.write _

theorem Texts.seenEnd (h : seen.Texts P) : (d.seenEnd seen).Texts P := by
  unfold Draft.seenEnd
  split
  · exact h.write _
  · exact h

theorem Texts.seenFragments (scanned : OfScannedText P) (h : seen.Texts P) {index : Nat}
    {awaited : Option (Nat × Char)} {fragments : List String} :
    (Skeleton.seenFragments index awaited d seen fragments).Texts P := by
  induction fragments generalizing index awaited d seen with
  | nil => exact h.seenEnd
  | cons fragment rest ih =>
    unfold Skeleton.seenFragments
    split
    · exact h
    next run _ =>
      have hrun := h.seenRun scanned d (!rest.isEmpty) run
      split
      · exact hrun
      · split
        · exact hrun.seenEnd
        · split
          · exact hrun
          · exact ih (hrun.seenHole index)

end Transcript

/-- What holds of all texts that are scanned holds of every text of a skeleton that is read. -/
theorem Skeleton.parse_texts {P : String → Prop} (scanned : OfScannedText P)
    {fragments : List String} {s : Skeleton} (h : parse fragments = .ok s) {data : String}
    (hmem : .text data ∈ Node.preorderAll s.nodes) : P data := by
  have hnode : Node.text data ∈ (transcript fragments).nodes := by
    rw [(parse_told h).1]
    exact List.mem_map.2 ⟨_, hmem, rfl⟩
  obtain ⟨p, hp, heq⟩ := List.mem_filterMap.1 hnode
  have start : Transcript.Texts P [] := by simp [Transcript.Texts]
  cases p with
  | text data' =>
    obtain rfl := Node.text.inj (Option.some.inj heq)
    exact start.seenFragments scanned data' hp
  | startTag tag written => simp [Piece.node?] at heq
  | closingTag name => simp [Piece.node?] at heq
  | hole index => simp [Piece.node?] at heq
  | dropped index => simp [Piece.node?] at heq

end Texts

end LiveTemplate
