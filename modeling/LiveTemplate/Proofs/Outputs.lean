import LiveTemplate.Markup
import LiveTemplate.Proofs.Making

/-!
# Outputs

The output of a value is a forest of elements, literal texts and texts from values, read
off the skeletons and the values alone. Printing it gives the markup of the value. An
element of it has the attributes that are written, in the order in which its template
and the mappings that are spread name them.
-/
namespace LiveTemplate
open Text

/-- What an attribute is written with. -/
inductive AttrOutput where
  | literal (text : String)
  | dynamic (text : String)
  /-- The attribute is there, and that is all. -/
  | present
deriving DecidableEq, Repr

inductive Output where
  | element (tag : String) (attrs : List (String × AttrOutput)) (children : List Output)
  | literal (text : String)
  | dynamic (text : String)
deriving Repr

/-! ### Attributes -/

/-- What becomes of the attribute that a binding names: what it is written with, or that
it is taken away. An absent value leaves it alone. -/
def Binding.outcome (wrap : String → AttrOutput) (b : Binding) (v : Value) :
    List (String × Option AttrOutput) :=
  match b with
  | .attribute name => if v.isNull then [] else [(name, some (wrap v.toText))]
  | .presence name => if v.isNull then [] else [(name, if v.isTruthy then some .present else none)]
  | _ => []

mutual
/-- What becomes of the attributes that a value names, those of spread entries in their
order. -/
def outcomes (wrap : String → AttrOutput) (b : Binding) :
    Value → List (String × Option AttrOutput)
  | .attributes handle entries =>
      if b = .spread then entryOutcomes wrap entries else b.outcome wrap (.attributes handle entries)
  | v => b.outcome wrap v
termination_by structural v => v

def entryOutcomes (wrap : String → AttrOutput) :
    List (String × Value) → List (String × Option AttrOutput)
  | [] => []
  | (name, v) :: rest =>
      (match Binding.ofEntryName? name with
        | some c => outcomes wrap c v
        | none => []) ++ entryOutcomes wrap rest
termination_by structural es => es
end

/-- What becomes of the attribute names of an element, given the values of the holes. -/
def attrOutcomes (shown : Nat → Value) (attrs : List (String × AttrValue)) :
    List (String × Option AttrOutput) :=
  attrs.flatMap fun (name, value) =>
    match Binding.ofName? name, value with
    | none, _ => []
    | some b, .literal s => outcomes .literal b (.text s)
    | some b, .hole index => outcomes .dynamic b (shown index)

/-- The attributes of those that are not taken away. -/
def kept (es : List (String × Option AttrOutput)) : List (String × AttrOutput) :=
  es.filterMap fun (name, o) => o.map (name, ·)

def attrOutputs (shown : Nat → Value) (attrs : List (String × AttrValue)) :
    List (String × AttrOutput) := kept (attrOutcomes shown attrs)

@[simp] theorem kept_append (es fs : List (String × Option AttrOutput)) :
    kept (es ++ fs) = kept es ++ kept fs := List.filterMap_append

/-! ### Forests -/

namespace Node

mutual
/-- The output of a node, given the values of the holes and their outputs as content. -/
def outputs (shown : Nat → Value) (contentAt : Nat → List Output) : Node → List Output
  | .element tag attrs children =>
      [.element tag (attrOutputs shown attrs) (outputsAll shown contentAt children)]
  | .text data => [.literal data]
  | .hole index => contentAt index
termination_by structural n => n

def outputsAll (shown : Nat → Value) (contentAt : Nat → List Output) : List Node → List Output
  | [] => []
  | n :: rest => n.outputs shown contentAt ++ outputsAll shown contentAt rest
termination_by structural ns => ns
end

end Node

namespace Value

mutual
/-- The output of a value as content. -/
def outputs : Value → List Output
  | .template _ shared values =>
      Node.outputsAll (Markup.valueAt values) (outputsAt values) shared.nodes
  | .list _ items => outputsAll items
  | .bool b => [.dynamic (Value.bool b).toText]
  | .number n => [.dynamic (Value.number n).toText]
  | .text s => [.dynamic s]
  | _ => []
termination_by structural v => v

def outputsAll : List Value → List Output
  | [] => []
  | v :: rest => v.outputs ++ outputsAll rest
termination_by structural vs => vs

def outputsAt : List Value → Nat → List Output
  | [], _ => []
  | v :: _, 0 => v.outputs
  | _ :: rest, index + 1 => outputsAt rest index
termination_by structural vs => vs
end

end Value

/-! ### Printing -/

/-- An attribute of a start tag with a space before it. -/
def AttrOutput.print (options : MarkupOptions) (name : String) : AttrOutput → String
  | .literal s => " " ++ name ++ "=\"" ++ s ++ "\""
  | .dynamic s =>
      " " ++ name ++ "=\"" ++
        (if options.escapeDynamic then escape attributeEscapes s else s) ++ "\""
  | .present => " " ++ name

def printAttrs (options : MarkupOptions) (attrs : List (String × AttrOutput)) : String :=
  String.join (attrs.map fun (name, o) => o.print options name)

namespace Output

mutual
/-- Literals stand as they are, and what comes from values is escaped if the options say
so. -/
def print (options : MarkupOptions) : Output → String
  | .element tag attrs children =>
      "<" ++ tag ++ printAttrs options attrs ++
        if children.isEmpty then Markup.emptyEnd options tag
        else ">" ++ printAll options children ++ Markup.closingTag tag
  | .literal s => s
  | .dynamic s => if options.escapeDynamic then escape textEscapes s else s
termination_by structural o => o

def printAll (options : MarkupOptions) : List Output → String
  | [] => ""
  | o :: rest => o.print options ++ printAll options rest
termination_by structural os => os
end

@[simp] theorem printAll_append (options : MarkupOptions) (os ps : List Output) :
    printAll options (os ++ ps) = printAll options os ++ printAll options ps := by
  induction os with
  | nil => simp [printAll]
  | cons o rest ih => simp [printAll, ih, String.append_assoc]

mutual
/-- All texts in order. -/
def text : Output → String
  | .element _ _ children => textAll children
  | .literal s => s
  | .dynamic s => s
termination_by structural o => o

def textAll : List Output → String
  | [] => ""
  | o :: rest => o.text ++ textAll rest
termination_by structural os => os
end

end Output

/-! ### The elements and texts of a value -/

namespace Node

mutual
/-- Something holds of the attributes of each element and of each text, and something of
the hole of each content. -/
def Every (P : List (String × AttrValue) → Prop) (Q : String → Prop) (C : Nat → Prop) : Node → Prop
  | .element _ attrs children => P attrs ∧ EveryAll P Q C children
  | .text data => Q data
  | .hole index => C index
termination_by structural n => n

def EveryAll (P : List (String × AttrValue) → Prop) (Q : String → Prop) (C : Nat → Prop) :
    List Node → Prop
  | [] => True
  | n :: rest => n.Every P Q C ∧ EveryAll P Q C rest
termination_by structural ns => ns
end

end Node

namespace Value

mutual
/-- Something holds of the attributes of each element that a value shows, with the values
of its holes, and something of each literal text. -/
def Every (P : List (String × AttrValue) → (Nat → Value) → Prop) (Q : String → Prop) : Value → Prop
  | .template _ shared values =>
      Node.EveryAll (fun attrs => P attrs (Markup.valueAt values)) Q (EveryAt P Q values)
        shared.nodes
  | .list _ items => EveryAll P Q items
  | _ => True
termination_by structural v => v

def EveryAll (P : List (String × AttrValue) → (Nat → Value) → Prop) (Q : String → Prop) :
    List Value → Prop
  | [] => True
  | v :: rest => v.Every P Q ∧ EveryAll P Q rest
termination_by structural vs => vs

def EveryAt (P : List (String × AttrValue) → (Nat → Value) → Prop) (Q : String → Prop) :
    List Value → Nat → Prop
  | [], _ => True
  | v :: _, 0 => v.Every P Q
  | _ :: rest, index + 1 => EveryAt P Q rest index
termination_by structural vs => vs
end

theorem everyAt_iff {P : List (String × AttrValue) → (Nat → Value) → Prop} {Q : String → Prop}
    (values : List Value) (index : Nat) :
    EveryAt P Q values index ↔ (Markup.valueAt values index).Every P Q := by
  induction values generalizing index with
  | nil => exact Iff.rfl
  | cons v rest ih =>
    cases index with
    | zero => exact Iff.rfl
    | succ index => exact ih index

end Value

/-- No children are given as markup. -/
def Unmarked (attrs : List (String × AttrValue)) : Prop := markupSource? attrs = none

/-! ### Markup is printed output -/

@[simp] theorem printAttrs_append (options : MarkupOptions) (as bs : List (String × AttrOutput)) :
    printAttrs options (as ++ bs) = printAttrs options as ++ printAttrs options bs := by
  simp [printAttrs]

section
variable (options : MarkupOptions)

theorem single_eq_print (b : Binding) (v : Value) :
    Markup.single options.escapeDynamic b v = printAttrs options (kept (b.outcome .dynamic v)) ∧
      Markup.single false b v = printAttrs options (kept (b.outcome .literal v)) := by
  rcases b with name | name | name | event | _ | _ | _
  · simp only [Markup.single, Binding.outcome]
    split <;> simp [kept, printAttrs, AttrOutput.print]
  · by_cases hnull : v.isNull = true
    · obtain rfl : v = .null := by simpa [Value.isNull] using hnull
      exact ⟨rfl, rfl⟩
    · by_cases htruthy : v.isTruthy = true <;>
        simp [Markup.single, Binding.outcome, hnull, htruthy, kept, printAttrs, AttrOutput.print]
  all_goals exact ⟨rfl, rfl⟩

mutual
theorem bound_eq_print : (v : Value) → (b : Binding) →
    Markup.bound options.escapeDynamic b v = printAttrs options (kept (outcomes .dynamic b v))
  | .attributes handle entries, b => by
      rw [Markup.bound, outcomes]
      split
      · exact spread_eq_print entries
      · exact (single_eq_print options b _).1
  | .null, b => (single_eq_print options b _).1
  | .bool _, b => (single_eq_print options b _).1
  | .number _, b => (single_eq_print options b _).1
  | .text _, b => (single_eq_print options b _).1
  | .template .., b => (single_eq_print options b _).1
  | .list .., b => (single_eq_print options b _).1
  | .callback _, b => (single_eq_print options b _).1
  | .cell _, b => (single_eq_print options b _).1
  | .payload _, b => (single_eq_print options b _).1
termination_by structural v => v

theorem spread_eq_print : (entries : List (String × Value)) →
    Markup.spread options.escapeDynamic entries =
      printAttrs options (kept (entryOutcomes .dynamic entries))
  | [] => rfl
  | (name, v) :: rest => by
      rw [Markup.spread, entryOutcomes, kept_append, printAttrs_append, spread_eq_print rest]
      cases Binding.ofEntryName? name with
      | none => rfl
      | some c =>
        dsimp only
        rw [bound_eq_print v c]
termination_by structural es => es
end

theorem attributes_eq_print (values : List Value) (attrs : List (String × AttrValue)) :
    Markup.attributes options values attrs =
      printAttrs options (attrOutputs (Markup.valueAt values) attrs) := by
  rw [Markup.attributes, attrOutputs, attrOutcomes]
  induction attrs with
  | nil => rfl
  | cons a rest ih =>
    obtain ⟨name, value⟩ := a
    rw [List.map_cons, String.join_cons, List.flatMap_cons, kept_append, printAttrs_append, ih]
    congr 1
    dsimp only
    cases Binding.ofName? name with
    | none => rfl
    | some b =>
      cases value with
      | literal s => exact (single_eq_print options b _).2
      | hole index => exact bound_eq_print options _ b

mutual
theorem node_eq_print (values : List Value) {contentAt : Nat → String}
    {outputsAt : Nat → List Output} {P : List (String × AttrValue) → Prop} {Q : String → Prop}
    {C : Nat → Prop} (unmarked : ∀ attrs, P attrs → Unmarked attrs)
    (contents : ∀ i, C i → contentAt i = Output.printAll options (outputsAt i)) :
    (n : Node) → n.Proper → n.Every P Q C →
    Markup.node options values contentAt n =
      Output.printAll options (n.outputs (Markup.valueAt values) outputsAt)
  | .text data, _, _ => by simp [Markup.node, Node.outputs, Output.printAll, Output.print]
  | .hole index, _, every => contents index every
  | .element tag attrs children, ⟨_, _, _, void, proper⟩, ⟨here, every⟩ => by
      have hsource : markupSource? attrs = none := unmarked attrs here
      have hinner : Markup.inner? values attrs = none := by simp [Markup.inner?, hsource]
      have hkids := nodes_eq_print values unmarked contents children proper every
      simp only [Markup.node, Node.outputs, Output.printAll, Output.print, hinner, hsource,
        Option.isSome_none, Bool.or_false, attributes_eq_print, hkids, String.append_empty]
      cases children with
      | nil => simp [Node.outputsAll]
      | cons n rest =>
        -- children whose output is empty stand in no void element
        cases hout : Node.outputsAll (Markup.valueAt values) outputsAt (n :: rest) with
        | nil =>
          have hvoid : isVoidTag tag = false := by
            by_contra hne
            simpa using void (by simpa using hne)
          simp [Markup.emptyEnd, hvoid, Output.printAll]
        | cons o os => simp
termination_by structural n => n

theorem nodes_eq_print (values : List Value) {contentAt : Nat → String}
    {outputsAt : Nat → List Output} {P : List (String × AttrValue) → Prop} {Q : String → Prop}
    {C : Nat → Prop} (unmarked : ∀ attrs, P attrs → Unmarked attrs)
    (contents : ∀ i, C i → contentAt i = Output.printAll options (outputsAt i)) :
    (ns : List Node) → Node.ProperAll ns → Node.EveryAll P Q C ns →
    Markup.nodes options values contentAt ns =
      Output.printAll options (Node.outputsAll (Markup.valueAt values) outputsAt ns)
  | [], _, _ => rfl
  | n :: rest, proper, every => by
      rw [Markup.nodes, Node.outputsAll, Output.printAll_append,
        node_eq_print values unmarked contents n proper.1 every.1,
        nodes_eq_print values unmarked contents rest proper.2 every.2]
termination_by structural ns => ns
end

variable {P : List (String × AttrValue) → (Nat → Value) → Prop} {Q : String → Prop}

mutual
/-- The markup of a value is its output, printed. -/
theorem content_eq_print (unmarked : ∀ attrs shown, P attrs shown → Unmarked attrs) :
    (v : Value) → v.Built → v.Every P Q →
    Markup.content options v = Output.printAll options v.outputs
  | .template _ shared values, ⟨made, _, built⟩, every => by
      rw [Markup.content, Value.outputs]
      exact nodes_eq_print options values (fun attrs h => unmarked attrs _ h)
        (contentAt_eq_print unmarked values built) _ made.wellFormed.proper every
  | .list _ items, built, every => contents_eq_print unmarked items built every
  | .bool b, _, _ => by simp [Markup.content, Markup.scalar, Value.outputs, Output.printAll, Output.print]
  | .number n, _, _ => by simp [Markup.content, Markup.scalar, Value.outputs, Output.printAll, Output.print]
  | .text s, _, _ => by
      simp [Markup.content, Markup.scalar, Value.outputs, Output.printAll, Output.print, Value.toText]
  | .null, _, _ => rfl
  | .attributes .., _, _ => rfl
  | .callback _, _, _ => rfl
  | .cell _, _, _ => rfl
  | .payload _, _, _ => rfl
termination_by structural v => v

theorem contents_eq_print (unmarked : ∀ attrs shown, P attrs shown → Unmarked attrs) :
    (vs : List Value) → Value.BuiltAll vs → Value.EveryAll P Q vs →
    Markup.contents options vs = Output.printAll options (Value.outputsAll vs)
  | [], _, _ => rfl
  | v :: rest, built, every => by
      rw [Markup.contents, Value.outputsAll, Output.printAll_append,
        content_eq_print unmarked v built.1 every.1, contents_eq_print unmarked rest built.2 every.2]
termination_by structural vs => vs

theorem contentAt_eq_print (unmarked : ∀ attrs shown, P attrs shown → Unmarked attrs) :
    (vs : List Value) → Value.BuiltAll vs → (i : Nat) → Value.EveryAt P Q vs i →
    Markup.contentAt options vs i = Output.printAll options (Value.outputsAt vs i)
  | [], _, _, _ => rfl
  | v :: _, built, 0, every => content_eq_print unmarked v built.1 every
  | _ :: rest, built, i + 1, every => contentAt_eq_print unmarked rest built.2 i every
termination_by structural vs => vs
end

end

end LiveTemplate
