import LiveTemplate.Skeleton.Reading
import Mathlib.Data.List.Nodup
import Mathlib.Tactic.Common

/-!
# What is read is well formed

Whatever fragments are read, every tag and every attribute name in the skeleton is one
that the grammar has, a void element has no children, no attribute name occurs twice in
an element, and every hole occurs at most once. A token that is read keeps that of the
draft, and so does a run of them and a hole.
-/
namespace LiveTemplate
open Text

namespace Entries
variable {κ α : Type} [DecidableEq κ]

theorem mem_of_get? {name : κ} {v : α} {entries : List (κ × α)} (h : get? name entries = some v) :
    (name, v) ∈ entries := by
  induction entries with
  | nil => simp [get?] at h
  | cons e rest ih =>
    obtain ⟨n, w⟩ := e
    rw [get?] at h
    split at h
    next hn => simp_all
    next => exact List.mem_cons_of_mem _ (ih h)

theorem get?_eq_none_iff {name : κ} {entries : List (κ × α)} :
    get? name entries = none ↔ name ∉ names entries := by
  induction entries with
  | nil => simp [get?, names]
  | cons e rest ih =>
    obtain ⟨n, w⟩ := e
    rw [get?]
    split
    next hn => simp [names, hn]
    next hn =>
      rw [ih]
      simp [names, Ne.symm hn]

/-- Where no name occurs twice, every entry is the one of its name. -/
theorem get?_of_mem {name : κ} {v : α} {entries : List (κ × α)} (nodup : (names entries).Nodup)
    (h : (name, v) ∈ entries) : get? name entries = some v := by
  induction entries with
  | nil => simp at h
  | cons e rest ih =>
    obtain ⟨n, w⟩ := e
    simp only [names, List.map_cons, List.nodup_cons] at nodup
    rw [get?]
    rcases List.mem_cons.1 h with h | h
    · simp_all
    · have hn : n ≠ name := by
        rintro rfl
        exact nodup.1 (List.mem_map_of_mem (f := Prod.fst) h)
      rw [if_neg hn]
      exact ih nodup.2 h

theorem names_put_nodup {name : κ} {v : α} {entries : List (κ × α)}
    (h : (names entries).Nodup) : (names (put name v entries)).Nodup := by
  rw [names_put]
  split
  · exact h
  next hn =>
    refine List.nodup_append.2 ⟨h, by simp, fun m hm k hk hmk => ?_⟩
    obtain rfl := List.mem_singleton.1 hk
    exact hn (hmk ▸ hm)

theorem mem_put {name : κ} {value : α} {entries : List (κ × α)} {a : κ × α}
    (h : a ∈ put name value entries) : a = (name, value) ∨ a ∈ entries := by
  induction entries with
  | nil => exact .inl (by simpa [put] using h)
  | cons e rest ih =>
    obtain ⟨n, v⟩ := e
    unfold put at h
    split at h
    next hn =>
      subst hn
      exact (List.mem_cons.1 h).imp id (List.mem_cons_of_mem _)
    next =>
      rcases List.mem_cons.1 h with rfl | h
      · exact .inr (List.mem_cons_self ..)
      · exact (ih h).imp id (List.mem_cons_of_mem _)

theorem mem_foldl_put {pairs entries : List (κ × α)} {a : κ × α}
    (h : a ∈ pairs.foldl (fun entries entry => put entry.1 entry.2 entries) entries) :
    a ∈ pairs ∨ a ∈ entries := by
  induction pairs generalizing entries with
  | nil => exact .inr h
  | cons p rest ih =>
    rcases ih h with h | h
    · exact .inl (List.mem_cons_of_mem _ h)
    · rcases mem_put h with rfl | h
      · exact .inl (List.mem_cons_self ..)
      · exact .inr h

theorem mem_names_foldl_put {pairs entries : List (κ × α)} {name : κ}
    (h : name ∈ names pairs ∨ name ∈ names entries) :
    name ∈ names (pairs.foldl (fun entries entry => put entry.1 entry.2 entries) entries) := by
  induction pairs generalizing entries with
  | nil => simpa [names] using h
  | cons p rest ih =>
    refine ih ?_
    rw [names_put]
    simp only [names, List.map_cons, List.mem_cons] at h ⊢
    grind

/-- What is written one after the other has the entries that were written, no others. -/
theorem mem_ofList {pairs : List (κ × α)} {a : κ × α} (h : a ∈ ofList pairs) : a ∈ pairs := by
  simpa using mem_foldl_put h

theorem mem_names_ofList {pairs : List (κ × α)} {name : κ} (h : name ∈ names pairs) :
    name ∈ names (ofList pairs) := mem_names_foldl_put (.inl h)

/-- What is written is kept unless the name is written again. -/
theorem get?_foldl_put_of_notMem {name : κ} {pairs entries : List (κ × α)}
    (h : name ∉ names pairs) :
    get? name (pairs.foldl (fun entries entry => put entry.1 entry.2 entries) entries) =
      get? name entries := by
  induction pairs generalizing entries with
  | nil => rfl
  | cons p rest ih =>
    simp only [names, List.map_cons, List.mem_cons, not_or] at h
    rw [List.foldl_cons, ih h.2, get?_put, if_neg h.1]

/-- A name that is written has one of the values that it is given. -/
theorem mem_of_get?_foldl_put {name : κ} {v : α} {pairs entries : List (κ × α)}
    (hname : name ∈ names pairs)
    (h : get? name (pairs.foldl (fun entries entry => put entry.1 entry.2 entries) entries) =
      some v) : (name, v) ∈ pairs := by
  induction pairs generalizing entries with
  | nil => simp [names] at hname
  | cons p rest ih =>
    by_cases hrest : name ∈ names rest
    · exact List.mem_cons_of_mem _ (ih hrest h)
    · rw [List.foldl_cons, get?_foldl_put_of_notMem hrest, get?_put] at h
      obtain rfl : name = p.1 := by
        rcases List.mem_cons.1 hname with heq | hmem
        · exact heq
        · exact absurd hmem hrest
      rw [if_pos rfl] at h
      obtain rfl := Option.some.inj h
      exact List.mem_cons_self ..

theorem names_ofList_nodup (pairs : List (κ × α)) : (names (ofList pairs)).Nodup := by
  have key : ∀ entries : List (κ × α), (names entries).Nodup →
      (names (pairs.foldl (fun entries entry => put entry.1 entry.2 entries) entries)).Nodup := by
    induction pairs with
    | nil => exact fun entries h => h
    | cons p rest ih => exact fun entries h => ih _ (names_put_nodup h)
  exact key [] List.nodup_nil

end Entries

/-- Letters, digits and hyphens, at least one. -/
def IsTagName (cs : List Char) : Prop := cs ≠ [] ∧ ∀ c ∈ cs, Token.isTagNameChar c = true

/-- A sigil or nothing, and then at least one character of names. -/
def IsAttrName (cs : List Char) : Prop :=
  ∃ sigil bare, cs = sigil ++ bare ∧ sigil.length ≤ 1 ∧ (∀ c ∈ sigil, Token.isSigil c = true) ∧
    bare ≠ [] ∧ ∀ c ∈ bare, Token.isAttrNameChar c = true

/-- The names that can stand in a start tag. -/
def IsBindingName (name : String) : Prop := name = Binding.spreadName ∨ IsAttrName name.toList

namespace Token

theorem mem_takeWhile {p : Char → Bool} {cs : List Char} : ∀ c ∈ cs.takeWhile p, p c = true := by
  intro c hc
  exact List.all_eq_true.1 List.all_takeWhile c hc

namespace Content

theorem doctype?_fst {cs rest : List Char} {token : Content} (h : doctype? cs = some (token, rest)) :
    token = .doctype := by
  unfold doctype? at h
  repeat' split at h
  all_goals simp_all

theorem commentStart?_fst {cs rest : List Char} {token : Content}
    (h : commentStart? cs = some (token, rest)) : token = .commentStart := by
  unfold commentStart? at h
  split at h <;> try contradiction
  exact (Prod.mk.inj (Option.some.inj h)).1.symm

theorem closeTag?_fst {cs rest : List Char} {token : Content}
    (h : closeTag? cs = some (token, rest)) : ∃ name, token = .closeTag name := by
  unfold closeTag? at h
  split at h <;> try contradiction
  simp only at h
  split at h <;> try contradiction
  split at h <;> try contradiction
  simp only [Option.some.injEq, Prod.mk.injEq] at h
  exact ⟨_, h.1.symm⟩

theorem openTag?_fst {cs rest : List Char} {token : Content}
    (h : openTag? cs = some (token, rest)) : ∃ name, token = .openTag name ∧ IsTagName name := by
  simp only [openTag?] at h
  split at h <;> try contradiction
  next hname =>
    simp only [Option.some.injEq, Prod.mk.injEq] at h
    exact ⟨_, h.1.symm, hname, mem_takeWhile⟩

theorem markup?_cases {cs : List Char} {found : Content × List Char}
    (h : markup? cs = some found) : doctype? cs = some found ∨ commentStart? cs = some found ∨
      closeTag? cs = some found ∨ openTag? cs = some found := by
  simp only [markup?, Option.orElse_eq_orElse, Option.orElse_eq_or, Option.or_eq_some_iff] at h
  exact h.imp_right fun h => h.2.imp_right fun h => h.2.imp_right And.right

/-- The name of a start tag is a tag name. -/
theorem scan_openTag {cs name rest : List Char} (h : scan cs = (.openTag name, rest)) :
    IsTagName name := by
  unfold scan at h
  split at h
  next run _ =>
    cases hm : markup? run with
    | none => simp [hm] at h
    | some found =>
      simp only [hm, Option.getD_some] at h
      subst h
      rcases markup?_cases hm with hm | hm | hm | hm
      · simpa using doctype?_fst hm
      · simpa using commentStart?_fst hm
      · obtain ⟨_, he⟩ := closeTag?_fst hm
        contradiction
      · obtain ⟨_, he, hn⟩ := openTag?_fst hm
        injection he with he
        exact he ▸ hn
  next => simp at h

end Content

/-- What is scanned as a name in a start tag is an attribute name. -/
theorem Tag.scan?_name {cs run rest : List Char} (h : Tag.scan? cs = some (.name run, rest)) :
    IsAttrName run := by
  unfold Tag.scan? at h
  split at h <;> try simp at h
  simp only [Tag.name?] at h
  split at h <;> try contradiction
  next hbare =>
    simp only [Option.some.injEq, Prod.mk.injEq, Tag.name.injEq] at h
    refine ⟨_, _, h.1.symm, ?_, ?_, hbare, mem_takeWhile⟩
    · exact Nat.le_trans (List.length_filter_le ..) (List.length_take_le 1 cs)
    · exact fun c hc => (List.mem_filter.1 hc).2

end Token

/-! ### Nodes that the grammar has -/

/-- The holes among attributes. -/
def attrHoles (attrs : List (String × AttrValue)) : List Nat :=
  attrs.filterMap fun a =>
    match a.2 with
    | .hole index => some index
    | .literal _ => none

theorem attrHoles_append (attrs more : List (String × AttrValue)) :
    attrHoles (attrs ++ more) = attrHoles attrs ++ attrHoles more := List.filterMap_append ..

namespace Node

mutual
/-- The holes in a node, those in attributes and those among the children. -/
def holes : Node → List Nat
  | .element _ attrs children => attrHoles attrs ++ holesAll children
  | .text _ => []
  | .hole index => [index]
termination_by structural n => n

def holesAll : List Node → List Nat
  | [] => []
  | n :: rest => n.holes ++ holesAll rest
termination_by structural ns => ns
end

mutual
def Proper : Node → Prop
  | .element tag attrs children =>
      IsTagName tag.toList ∧ (Entries.names attrs).Nodup ∧
        (∀ name ∈ Entries.names attrs, IsBindingName name) ∧
        (isVoidTag tag = true → children = []) ∧ ProperAll children
  | .text _ => True
  | .hole _ => True
termination_by structural n => n

/-- The nodes are what the grammar allows. -/
def ProperAll : List Node → Prop
  | [] => True
  | n :: rest => n.Proper ∧ ProperAll rest
termination_by structural ns => ns
end

@[simp] theorem holesAll_nil : holesAll [] = [] := rfl

@[simp] theorem holesAll_cons (n : Node) (rest : List Node) :
    holesAll (n :: rest) = n.holes ++ holesAll rest := rfl

@[simp] theorem holesAll_append (ns ms : List Node) :
    holesAll (ns ++ ms) = holesAll ns ++ holesAll ms := by
  induction ns with
  | nil => rfl
  | cons n rest ih => simp [ih]

theorem properAll_append {ns ms : List Node} :
    ProperAll (ns ++ ms) ↔ ProperAll ns ∧ ProperAll ms := by
  induction ns with
  | nil => simp [ProperAll]
  | cons n rest ih => simp [ProperAll, ih, and_assoc]

end Node

/-- A skeleton whose nodes the grammar has and whose holes are all different and known
by its number of holes. -/
structure Skeleton.WellFormed (s : Skeleton) : Prop where
  proper : Node.ProperAll s.nodes
  nodup : (Node.holesAll s.nodes).Nodup
  lt_holes : ∀ i ∈ Node.holesAll s.nodes, i < s.holes

/-! ### Drafts -/

theorem attrHoles_put_count (name : String) (value : AttrValue) (attrs : List (String × AttrValue))
    (i : Nat) :
    (attrHoles (Entries.put name value attrs)).count i ≤
      (attrHoles [(name, value)]).count i + (attrHoles attrs).count i := by
  induction attrs with
  | nil => simp [Entries.put, attrHoles]
  | cons a rest ih =>
    obtain ⟨n, v⟩ := a
    by_cases h : n = name
    · cases value <;> cases v <;> simp [Entries.put, h, attrHoles, List.count_cons] <;>
        omega
    · simp only [Entries.put, if_neg h]
      cases v <;> simp_all [attrHoles, List.count_cons]
      omega

namespace OpenElement

def Proper (e : OpenElement) : Prop := e.toNode.Proper

def holes (e : OpenElement) : List Nat := e.toNode.holes

theorem bind_proper {e : OpenElement} {name : String} {value : AttrValue} (he : e.Proper)
    (hname : IsBindingName name) : (e.bind name value).Proper := by
  obtain ⟨tag, nodup, names, void, children⟩ := he
  refine ⟨tag, Entries.names_put_nodup nodup, ?_, void, children⟩
  intro m hm
  replace hm : m ∈ Entries.names (Entries.put name value e.attrs) := hm
  rw [Entries.names_put] at hm
  split at hm
  · exact names m hm
  · rcases List.mem_append.1 hm with hm | hm
    · exact names m hm
    · obtain rfl := List.mem_singleton.1 hm
      exact hname

theorem bind_count (e : OpenElement) (name : String) (value : AttrValue) (i : Nat) :
    (e.bind name value).holes.count i ≤ (attrHoles [(name, value)]).count i + e.holes.count i := by
  have := attrHoles_put_count name value e.attrs i
  simp only [holes, toNode, bind, Node.holes, List.count_append]
  omega

theorem settle_proper {e : OpenElement} {pending : Option Pending} (he : e.Proper)
    (hp : ∀ p ∈ pending, IsBindingName p.name) : (Draft.settle e pending).Proper := by
  unfold Draft.settle
  split
  · exact bind_proper he (hp _ rfl)
  · exact he

theorem settle_count (e : OpenElement) (pending : Option Pending) (i : Nat) :
    (Draft.settle e pending).holes.count i ≤ e.holes.count i := by
  unfold Draft.settle
  split
  · simpa [attrHoles] using bind_count e _ (.literal "") i
  · exact Nat.le_refl _

theorem settle_eq (e : OpenElement) (pending : Option Pending) :
    (Draft.settle e pending).tag = e.tag ∧ (Draft.settle e pending).children = e.children := by
  unfold Draft.settle
  split <;> exact ⟨rfl, rfl⟩

end OpenElement

namespace Draft

/-- Elements that are open can have children; the innermost may also be one that is
about to be finished. -/
def OpenedProper : List OpenElement → Prop
  | [] => True
  | e :: outer => e.Proper ∧ ∀ o ∈ outer, o.Proper ∧ isVoidTag o.tag = false

def ModeProper : Mode → Prop
  | .tag e pending => e.Proper ∧ e.children = [] ∧ ∀ p ∈ pending, IsBindingName p.name
  | _ => True

structure Proper (d : Draft) : Prop where
  nodes : Node.ProperAll d.nodes
  opened : ∀ e ∈ d.opened, e.Proper ∧ isVoidTag e.tag = false
  mode : ModeProper d.mode

def modeHoles : Mode → List Nat
  | .tag e _ => e.holes
  | _ => []

def holes (d : Draft) : List Nat :=
  Node.holesAll d.nodes ++ d.opened.flatMap OpenElement.holes ++ modeHoles d.mode

/-- One draft after another, with no hole that was not there. -/
structure Follows (d d' : Draft) : Prop where
  proper : d'.Proper
  count_le : ∀ i, d'.holes.count i ≤ d.holes.count i

theorem Follows.refl {d : Draft} (hd : d.Proper) : Follows d d := ⟨hd, fun _ => Nat.le_refl _⟩

theorem Follows.trans {d d' d'' : Draft} (h : Follows d d') (h' : Follows d' d'') :
    Follows d d'' := ⟨h'.proper, fun i => Nat.le_trans (h'.count_le i) (h.count_le i)⟩

theorem add_nodes {d : Draft} {node : Node} (hn : node.Proper)
    (hnodes : Node.ProperAll d.nodes) (ho : ∀ e ∈ d.opened, e.Proper ∧ isVoidTag e.tag = false) :
    Node.ProperAll (d.add node).nodes ∧
      (∀ e ∈ (d.add node).opened, e.Proper ∧ isVoidTag e.tag = false) ∧
      (d.add node).mode = d.mode := by
  obtain ⟨nodes, opened, mode⟩ := d
  cases opened with
  | nil => exact ⟨Node.properAll_append.2 ⟨hnodes, hn, trivial⟩, by simp [add], rfl⟩
  | cons e outer =>
    refine ⟨hnodes, ?_, rfl⟩
    rintro o (_ | ⟨_, h⟩)
    · obtain ⟨⟨tag, nodup, names, -, children⟩, hv⟩ := ho e (by simp)
      exact ⟨⟨tag, nodup, names, fun h => by simp [hv] at h,
        Node.properAll_append.2 ⟨children, hn, trivial⟩⟩, hv⟩
    · exact ho o (List.mem_cons_of_mem _ h)

theorem add_holes (d : Draft) (node : Node) (i : Nat) :
    (d.add node).holes.count i = node.holes.count i + d.holes.count i := by
  obtain ⟨nodes, opened, mode⟩ := d
  cases opened with
  | nil =>
    simp [add, holes]
    omega
  | cons e outer =>
    simp [add, holes, OpenElement.holes, OpenElement.toNode, Node.holes]
    omega

theorem add_proper {d : Draft} (hd : d.Proper) {node : Node} (hn : node.Proper) :
    (d.add node).Proper := by
  obtain ⟨hnodes, ho, hm⟩ := add_nodes hn hd.nodes hd.opened
  exact ⟨hnodes, ho, hm ▸ hd.mode⟩

theorem closeInnermost_holes (d : Draft) (i : Nat) :
    d.closeInnermost.holes.count i = d.holes.count i := by
  obtain ⟨nodes, opened, mode⟩ := d
  cases opened with
  | nil => rfl
  | cons e outer =>
    rw [closeInnermost, add_holes]
    simp [holes, OpenElement.holes]
    omega

theorem close_holes (count : Nat) (d : Draft) (i : Nat) :
    (d.close count).holes.count i = d.holes.count i := by
  induction count generalizing d with
  | zero => rfl
  | succ count ih => rw [close, ih, closeInnermost_holes]

/-- Finishing an element keeps what is open fit to be finished. -/
theorem close_proper (count : Nat) {d : Draft} (hnodes : Node.ProperAll d.nodes)
    (ho : OpenedProper d.opened) :
    Node.ProperAll (d.close count).nodes ∧ OpenedProper (d.close count).opened ∧
      (d.close count).mode = d.mode ∧
      ((∀ e ∈ d.opened, isVoidTag e.tag = false) →
        ∀ e ∈ (d.close count).opened, isVoidTag e.tag = false) := by
  induction count generalizing d with
  | zero => exact ⟨hnodes, ho, rfl, id⟩
  | succ count ih =>
    obtain ⟨nodes, opened, mode⟩ := d
    cases opened with
    | nil =>
      rw [close]
      exact ih hnodes trivial
    | cons e outer =>
      obtain ⟨hp, ho', hm⟩ := add_nodes (d := ⟨nodes, outer, mode⟩) ho.1 hnodes ho.2
      have hopen : OpenedProper (Draft.add e.toNode ⟨nodes, outer, mode⟩).opened := by
        cases hadd : (Draft.add e.toNode ⟨nodes, outer, mode⟩).opened with
        | nil => trivial
        | cons f rest =>
          rw [hadd] at ho'
          exact ⟨(ho' f (by simp)).1, fun o h => ho' o (by simp [h])⟩
      obtain ⟨h1, h2, h3, h4⟩ := ih hp hopen
      exact ⟨h1, h2, h3.trans hm, fun _ => h4 fun o h => (ho' o h).2⟩

theorem opened_proper {d : Draft} (hd : d.Proper) : OpenedProper d.opened := by
  have h := hd.opened
  cases hopen : d.opened with
  | nil => trivial
  | cons e outer =>
    rw [hopen] at h
    exact ⟨(h e (by simp)).1, fun o ho => h o (by simp [ho])⟩

variable {d d' : Draft}

theorem add_follows (hd : d.Proper) {node : Node} (hn : node.Proper) (hh : node.holes = []) :
    Follows d (d.add node) :=
  ⟨add_proper hd hn, fun i => by rw [add_holes, hh]; simp⟩

theorem closeNamed_follows (hd : d.Proper) (name : String) : Follows d (d.closeNamed name) := by
  unfold closeNamed
  split
  · exact .refl hd
  next index _ =>
    obtain ⟨h1, h2, h3, h4⟩ := close_proper (index + 1) hd.nodes (opened_proper hd)
    have h5 := h4 fun e he => (hd.opened e he).2
    refine ⟨⟨h1, ?_, h3 ▸ hd.mode⟩, fun i => Nat.le_of_eq (close_holes _ d i)⟩
    cases hopen : (d.close (index + 1)).opened with
    | nil => simp
    | cons e outer =>
      rw [hopen] at h2 h5
      rintro o (_ | ⟨_, ho⟩)
      · exact ⟨h2.1, h5 e (by simp)⟩
      · exact h2.2 o ho

/-- Going on in a start tag with at most the holes that were there. -/
theorem inTag_follows (hd : d.Proper) {e e' : OpenElement} {pending pending' : Option Pending}
    (hmode : d.mode = .tag e pending) (he : e'.Proper) (hc : e'.children = [])
    (hp : ∀ p ∈ pending', IsBindingName p.name)
    (hcount : ∀ i, e'.holes.count i ≤ e.holes.count i) : Follows d (d.inTag e' pending') :=
  ⟨⟨hd.nodes, hd.opened, he, hc, hp⟩, fun i => by
    have := hcount i
    simp only [holes, inTag, hmode, modeHoles, List.count_append]
    omega⟩

/-- The end of a start tag whose element has been completed. -/
theorem endTag_follows (hd : d.Proper) {e e' : OpenElement} {pending : Option Pending}
    (hmode : d.mode = .tag e pending) (he : e'.Proper)
    (hcount : ∀ i, e'.holes.count i ≤ e.holes.count i) (selfClosing : Bool) :
    Follows d (d.endTag e' selfClosing) := by
  have hsplit : ∀ i, d.holes.count i = (Node.holesAll d.nodes).count i +
      (d.opened.flatMap OpenElement.holes).count i + e.holes.count i := by
    intro i
    simp only [holes, hmode, modeHoles, List.count_append]
  unfold endTag
  split
  next =>
    have hd₀ : Draft.Proper ⟨d.nodes, d.opened, .content⟩ := ⟨hd.nodes, hd.opened, trivial⟩
    refine ⟨add_proper hd₀ he, fun i => ?_⟩
    have := hcount i
    rw [add_holes, hsplit]
    simp only [holes, modeHoles, List.append_nil, List.count_append, OpenElement.holes] at this ⊢
    omega
  next hvoid =>
    simp only [Bool.or_eq_true, not_or, Bool.not_eq_true] at hvoid
    refine ⟨⟨hd.nodes, ?_, trivial⟩, fun i => ?_⟩
    · rintro o (_ | ⟨_, ho⟩)
      · exact ⟨he, hvoid.2⟩
      · exact hd.opened o ho
    · have := hcount i
      rw [hsplit]
      simp only [holes, modeHoles, List.flatMap_cons, List.append_nil, List.count_append]
      omega

theorem takeContent_follows (hd : d.Proper) (hmode : d.mode = .content) {cs rest : List Char}
    {token : Token.Content} (h : Token.Content.scan cs = (token, rest)) :
    Follows d (d.takeContent token) := by
  cases token with
  | doctype => exact .refl hd
  | commentStart =>
    exact ⟨⟨hd.nodes, hd.opened, trivial⟩, fun i => by simp [takeContent, holes, hmode, modeHoles]⟩
  | closeTag name => exact closeNamed_follows hd _
  | openTag name =>
    have hname := Token.Content.scan_openTag h
    refine ⟨⟨hd.nodes, hd.opened, ⟨?_, by simp [Entries.names], by simp [Entries.names],
      fun _ => rfl, trivial⟩, rfl, by simp⟩, fun i => ?_⟩
    · simpa using hname
    · simp [takeContent, inTag, holes, hmode, modeHoles, OpenElement.holes, OpenElement.toNode,
        Node.holes, attrHoles]
  | text run =>
    simp only [takeContent]
    split
    · exact .refl hd
    · exact add_follows hd trivial rfl

theorem bindLiteral_count (e : OpenElement) (name text : String) (i : Nat) :
    (e.bind name (.literal text)).holes.count i ≤ e.holes.count i := by
  simpa [attrHoles] using OpenElement.bind_count e name (.literal text) i

theorem stepValue_follows (hd : d.Proper) {hasNext : Bool} {e : OpenElement} {name : String}
    {pending : Option Pending} (hmode : d.mode = .tag e pending) (hname : IsBindingName name)
    {input rest : List Char} (h : stepValue hasNext e name d input = some (d', rest)) :
    Follows d d' := by
  have hm := hd.mode
  rw [hmode] at hm
  obtain ⟨he, hc, -⟩ := hm
  have bound : ∀ text, Follows d (d.inTag (e.bind name (.literal text)) none) := fun text =>
    inTag_follows hd hmode (OpenElement.bind_proper he hname) hc (by simp)
      (bindLiteral_count e name text)
  unfold stepValue at h
  split at h
  next => simp only [Option.some.injEq, Prod.mk.injEq] at h; exact h.1 ▸ bound _
  next => simp only [Option.some.injEq, Prod.mk.injEq] at h; exact h.1 ▸ bound _
  next =>
    split at h <;> try contradiction
    simp only [Option.some.injEq, Prod.mk.injEq] at h
    exact h.1 ▸ inTag_follows hd hmode he hc (by simpa using hname) fun _ => Nat.le_refl _
  next =>
    split at h <;> try contradiction
    simp only [Option.some.injEq, Prod.mk.injEq] at h
    exact h.1 ▸ endTag_follows hd hmode (OpenElement.bind_proper he hname)
      (bindLiteral_count e name "") _

theorem stepName_follows (hd : d.Proper) {hasNext : Bool} {e : OpenElement}
    {pending : Option Pending} (hmode : d.mode = .tag e pending) {input rest : List Char}
    (h : stepName hasNext e pending d input = some (d', rest)) : Follows d d' := by
  have hm := hd.mode
  rw [hmode] at hm
  obtain ⟨he, hc, hp⟩ := hm
  have hs := OpenElement.settle_proper he hp
  have hsc := ((OpenElement.settle_eq e pending).2.trans hc)
  unfold stepName at h
  split at h <;> try contradiction
  next =>
    simp only [Option.some.injEq, Prod.mk.injEq] at h
    exact h.1 ▸ endTag_follows hd hmode hs (OpenElement.settle_count e pending) _
  next =>
    split at h <;> try contradiction
    simp only [Option.some.injEq, Prod.mk.injEq] at h
    exact h.1 ▸ inTag_follows hd hmode he hc (by simpa using hp) fun _ => Nat.le_refl _
  next =>
    split at h <;> try contradiction
    simp only [Option.some.injEq, Prod.mk.injEq] at h
    exact h.1 ▸ inTag_follows hd hmode hs hsc (by simp [IsBindingName])
      (OpenElement.settle_count e pending)
  next hscan =>
    simp only [Option.some.injEq, Prod.mk.injEq] at h
    have hrun := Token.Tag.scan?_name hscan
    exact h.1 ▸ inTag_follows hd hmode hs hsc (by simpa [IsBindingName] using .inr hrun)
      (OpenElement.settle_count e pending)

/-- A token that is read keeps the draft well formed and brings no hole. -/
theorem step_follows (hd : d.Proper) {hasNext : Bool} {cs rest : List Char}
    (h : step hasNext d cs = some (d', rest)) : Follows d d' := by
  unfold step at h
  split at h
  next hmode =>
    split at h <;> simp only [Option.some.injEq, Prod.mk.injEq] at h
    · refine h.1 ▸ ⟨⟨hd.nodes, hd.opened, trivial⟩, fun i => ?_⟩
      simp [holes, hmode, modeHoles]
    · exact h.1 ▸ .refl hd
  next e pending hmode =>
    simp only [stepTag] at h
    split at h
    · simp only [Option.some.injEq, Prod.mk.injEq] at h
      exact h.1 ▸ .refl hd
    · split at h
      next name =>
        have hm := hd.mode
        rw [hmode] at hm
        exact stepValue_follows hd hmode (hm.2.2 _ rfl) h
      next => exact stepName_follows hd hmode h
  next hmode =>
    simp only [Option.some.injEq, Prod.mk.injEq] at h
    exact h.1 ▸ takeContent_follows hd hmode rfl

theorem readRun_follows (hd : d.Proper) {hasNext : Bool} {cs : List Char}
    (h : readRun hasNext d cs = .ok d') : Follows d d' := by
  fun_induction readRun hasNext d cs with
  | case1 => exact (by injection h with h; exact h ▸ .refl hd)
  | case2 => contradiction
  | case3 d cs hcs d₁ rest hstep ih =>
    have h₁ := step_follows hd hstep
    exact h₁.trans (ih h₁.proper h)

theorem bindHole_proper (hd : d.Proper) {e : OpenElement} {name : String}
    {pending : Option Pending} (hmode : d.mode = .tag e pending) (hname : IsBindingName name)
    (index : Nat) :
    (d.inTag (e.bind name (.hole index)) none).Proper ∧
      ∀ i, (d.inTag (e.bind name (.hole index)) none).holes.count i ≤
        [index].count i + d.holes.count i := by
  have hm := hd.mode
  rw [hmode] at hm
  refine ⟨⟨hd.nodes, hd.opened, OpenElement.bind_proper hm.1 hname, hm.2.1, by simp⟩, fun i => ?_⟩
  have := OpenElement.bind_count e name (.hole index) i
  simp only [attrHoles, List.filterMap_cons, List.filterMap_nil] at this
  simp only [holes, inTag, hmode, modeHoles, List.count_append]
  omega

/-- A hole is placed once, and brings no other. -/
theorem takeHole_proper (hd : d.Proper) {index : Nat} {quote : Option Char}
    (h : d.takeHole index = some (d', quote)) :
    d'.Proper ∧ ∀ i, d'.holes.count i ≤ [index].count i + d.holes.count i := by
  have hm := hd.mode
  unfold takeHole at h
  split at h <;> simp only [Option.some.injEq, Prod.mk.injEq, reduceCtorEq] at h
  next => exact h.1 ▸ ⟨hd, fun i => by omega⟩
  next =>
    refine h.1 ▸ ⟨add_proper hd trivial, fun i => ?_⟩
    rw [add_holes]
    exact Nat.le_refl _
  next hmode =>
    rw [hmode] at hm
    exact h.1 ▸ bindHole_proper hd hmode (hm.2.2 _ rfl) index
  next hmode =>
    rw [hmode] at hm
    exact h.1 ▸ bindHole_proper hd hmode (hm.2.2 _ rfl) index

/-- What is finished is well formed, and has the holes of the draft. -/
theorem finish_proper (hd : d.Proper) :
    Node.ProperAll d.finish ∧ ∀ i, (Node.holesAll d.finish).count i ≤ d.holes.count i := by
  have key : ∀ d : Draft, Node.ProperAll d.nodes → OpenedProper d.opened →
      Node.ProperAll (d.close d.opened.length).nodes ∧
        ∀ i, (Node.holesAll (d.close d.opened.length).nodes).count i ≤ d.holes.count i := by
    intro d hn ho
    refine ⟨(close_proper _ hn ho).1, fun i => ?_⟩
    rw [← close_holes d.opened.length d i]
    simp only [holes, List.count_append]
    omega
  have hm := hd.mode
  unfold finish
  split
  next e pending hmode =>
    rw [hmode] at hm
    obtain ⟨h1, h2⟩ := key { d with opened := settle e pending :: d.opened, mode := .content }
      hd.nodes ⟨OpenElement.settle_proper hm.1 hm.2.2, hd.opened⟩
    refine ⟨h1, fun i => Nat.le_trans (h2 i) ?_⟩
    have := OpenElement.settle_count e pending i
    simp only [holes, hmode, modeHoles, List.flatMap_cons, List.count_append, List.count_nil]
    omega
  next => exact key d hd.nodes (opened_proper hd)

end Draft

namespace Skeleton

/-- What happens to the first fragment of a reading that succeeds, and what to the others. -/
theorem readFragments_cons {fragment : String} {rest : List String} {index : Nat}
    {awaited : Option (Nat × Char)} {d d' : Draft}
    (h : readFragments index awaited d (fragment :: rest) = .ok d') :
    ∃ run d₁, behindQuote awaited fragment = .ok run ∧
      d.readRun (!rest.isEmpty) run = .ok d₁ ∧
      (rest = [] ∧ d₁ = d' ∨ rest ≠ [] ∧ ∃ d₂ quote, d₁.takeHole index = some (d₂, quote) ∧
        readFragments (index + 1) (quote.map (index, ·)) d₂ rest = .ok d') := by
  rw [readFragments] at h
  cases hrun : behindQuote awaited fragment with
  | error e => simp [hrun, Except.bind, bind] at h
  | ok run =>
    cases hread : d.readRun (!rest.isEmpty) run with
    | error e => simp [hrun, hread, Except.mapError, Except.bind, bind] at h
    | ok d₁ =>
      simp only [hrun, hread, Except.mapError, Except.bind, bind] at h
      refine ⟨run, d₁, rfl, hread, ?_⟩
      split at h
      next hrest =>
        cases h
        exact .inl ⟨by simpa using hrest, rfl⟩
      next hrest =>
        split at h
        · contradiction
        next d₂ quote htake => exact .inr ⟨by simpa using hrest, d₂, quote, htake, h⟩

theorem parse_ok {fragments : List String} {s : Skeleton} (h : parse fragments = .ok s) :
    ∃ d, readFragments 0 none {} fragments = .ok d ∧ ⟨d.finish, fragments.length - 1⟩ = s := by
  unfold parse at h
  cases hread : readFragments 0 none {} fragments with
  | error e => simp [hread, Except.bind, bind] at h
  | ok d =>
    simp only [hread, Except.bind, bind, pure, Except.pure, Except.ok.injEq] at h
    exact ⟨d, rfl, h⟩

/-- Holes are counted up while fragments are read, so each of them is new. -/
theorem readFragments_proper {fragments : List String} {index : Nat}
    {awaited : Option (Nat × Char)} {d d' : Draft} (hd : d.Proper)
    (hone : ∀ i, d.holes.count i ≤ 1) (hlt : ∀ i, index ≤ i → d.holes.count i = 0)
    (h : readFragments index awaited d fragments = .ok d') :
    d'.Proper ∧ (∀ i, d'.holes.count i ≤ 1) ∧
      ∀ i, index + (fragments.length - 1) ≤ i → d'.holes.count i = 0 := by
  induction fragments generalizing index awaited d with
  | nil =>
    obtain rfl : d = d' := by injection h
    exact ⟨hd, hone, fun i hi => hlt i (by simpa using hi)⟩
  | cons fragment rest ih =>
    obtain ⟨run, d₁, -, hr, hrest⟩ := readFragments_cons h
    obtain ⟨hd₁, hc₁⟩ := Draft.readRun_follows hd hr
    have hone₁ : ∀ i, d₁.holes.count i ≤ 1 := fun i => Nat.le_trans (hc₁ i) (hone i)
    have hlt₁ : ∀ i, index ≤ i → d₁.holes.count i = 0 := fun i hi =>
      Nat.le_zero.1 (hlt i hi ▸ hc₁ i)
    rcases hrest with ⟨-, rfl⟩ | ⟨hne, d₂, quote, htake, hnext⟩
    · exact ⟨hd₁, hone₁, fun i hi => hlt₁ i (by omega)⟩
    · obtain ⟨hd₂, hc₂⟩ := Draft.takeHole_proper hd₁ htake
      have hpos : 0 < rest.length := List.length_pos_iff.2 hne
      have hone₂ : ∀ i, d₂.holes.count i ≤ 1 := by
        intro i
        have h4 := hc₂ i
        have h5 := hone₁ i
        have h6 := hlt₁ i
        by_cases hi : index = i
        · subst hi
          simp only [List.count_singleton_self] at h4
          omega
        · simp only [List.count_singleton, beq_iff_eq, if_neg hi] at h4
          omega
      have hlt₂ : ∀ i, index + 1 ≤ i → d₂.holes.count i = 0 := by
        intro i hi
        have h4 := hc₂ i
        have h6 := hlt₁ i (by omega)
        have hne : index ≠ i := by omega
        simp only [List.count_singleton, beq_iff_eq, if_neg hne] at h4
        omega
      obtain ⟨h1, h2, h3⟩ := ih hd₂ hone₂ hlt₂ hnext
      refine ⟨h1, h2, fun i hi => h3 i ?_⟩
      simp only [List.length_cons] at hi
      omega

/-- Every skeleton that is read is well formed. -/
theorem parse_wellFormed {fragments : List String} {s : Skeleton} (h : parse fragments = .ok s) :
    s.WellFormed := by
  obtain ⟨d, hr, rfl⟩ := parse_ok h
  obtain ⟨hd, hone, hlt⟩ := readFragments_proper (d := {}) ⟨trivial, by simp, trivial⟩
    (by simp [Draft.holes, Draft.modeHoles]) (by simp [Draft.holes, Draft.modeHoles]) hr
  obtain ⟨hp, hc⟩ := Draft.finish_proper hd
  refine ⟨hp, List.nodup_iff_count_le_one.2 fun i => Nat.le_trans (hc i) (hone i), fun i hi => ?_⟩
  have hpos := List.count_pos_iff.2 hi
  by_contra hge
  have hzero := hlt i (by simpa using hge)
  have hle := hc i
  simp only at hpos
  omega

end Skeleton

end LiveTemplate
