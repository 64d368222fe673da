import LiveTemplate.Proofs.ErrorSpans
import LiveTemplate.Proofs.SpreadNames

/-!
# Literals in markup

The value that a start tag gives an attribute stands in the markup behind the name of the tag,
or is empty. So it is shorter than the markup, and markup that is put into an element by a
literal, with the markup inside it, comes to an end.
-/
namespace LiveTemplate
open Text

namespace Text

theorem utf8Length_takeWhile (p : Char → Bool) (cs : List Char) :
    utf8Length (cs.takeWhile p) ≤ utf8Length cs := by
  have whole := congrArg utf8Length (List.takeWhile_append_dropWhile (p := p) (l := cs))
  rw [utf8Length_append] at whole
  omega

theorem utf8Length_suffix_lt {cs ds : List Char} (h : cs <:+ ds) (hlt : cs.length < ds.length) :
    utf8Length cs < utf8Length ds := by
  obtain ⟨before, rfl⟩ := h
  cases before with
  | nil => simp at hlt
  | cons c before =>
    have := c.utf8Size_pos
    rw [List.cons_append, utf8Length_cons, utf8Length_append]
    omega

end Text

theorem Token.Value.scan?_text {cs rest text : List Char}
    (h : Value.scan? cs = some (.quoted text, rest) ∨ Value.scan? cs = some (.unquoted text, rest)) :
    utf8Length text ≤ utf8Length cs := by
  unfold Value.scan? Value.quoted? at h
  split at h
  · simp at h
  next c run =>
    have behind : utf8Length run ≤ utf8Length (c :: run) := utf8Length_suffix (List.suffix_cons ..)
    split at h
    next =>
      split at h
      next =>
        obtain ⟨rfl, -⟩ : run.takeWhile (· ≠ c) = text ∧ _ := by simpa using h
        exact (utf8Length_takeWhile _ _).trans behind
      next => split at h <;> simp at h
    next =>
      split at h
      next =>
        obtain ⟨rfl, -⟩ : (c :: run).takeWhile isUnquotedChar = text ∧ _ := by simpa using h
        exact utf8Length_takeWhile _ _
      next => simp at h

/-- Every literal among attributes is shorter than that. -/
def LiteralsShorter (size : Nat) (attrs : List (String × AttrValue)) : Prop :=
  ∀ name s, (name, AttrValue.literal s) ∈ attrs → s.utf8ByteSize < size

theorem LiteralsShorter.put {size : Nat} {attrs : List (String × AttrValue)}
    (h : LiteralsShorter size attrs) {name : String} {value : AttrValue}
    (hvalue : ∀ s, value = .literal s → s.utf8ByteSize < size) :
    LiteralsShorter size (Entries.put name value attrs) := by
  intro m s hm
  rcases Entries.mem_put hm with hm | hm
  · obtain ⟨-, rfl⟩ := Prod.mk.injEq .. ▸ hm
    exact hvalue s rfl
  · exact h m s hm

/-- The literals in a node and below it are shorter than that. -/
abbrev Node.Shorter (size : Nat) (n : Node) : Prop :=
  n.Every (LiteralsShorter size) (fun _ => True) fun _ => True

abbrev Node.ShorterAll (size : Nat) (ns : List Node) : Prop :=
  EveryAll (LiteralsShorter size) (fun _ => True) (fun _ => True) ns

namespace Draft

variable {d d' : Draft} {e : OpenElement} {hasNext : Bool} {cs rest : List Char} {size : Nat}

/-- What has been read of a text of that size, with so much left. Inside a start tag some of
the text has been read, so a value that is still to be read is shorter than the text. -/
structure Shorter (size : Nat) (rest : List Char) (d : Draft) : Prop where
  every : d.Every (LiteralsShorter size) (fun _ => True) fun _ => True
  left : utf8Length rest ≤ size
  tag : ∀ e pending, d.mode = .tag e pending → e.toNode.Shorter size ∧ utf8Length rest < size

theorem bind_shorter (he : e.toNode.Shorter size) {name : String} {value : AttrValue}
    (hvalue : ∀ s, value = .literal s → s.utf8ByteSize < size) :
    (e.bind name value).toNode.Shorter size :=
  ⟨he.1.put hvalue, he.2⟩

theorem settle_shorter (he : e.toNode.Shorter size) (hsize : 0 < size) (pending : Option Pending) :
    (settle e pending).toNode.Shorter size := by
  unfold settle
  split
  · refine bind_shorter he ?_
    rintro _ ⟨⟩
    exact hsize
  · exact he

theorem inTag_shorter (every : d.Every (LiteralsShorter size) (fun _ => True) fun _ => True)
    (he : e.toNode.Shorter size) (pending : Option Pending) (left : utf8Length rest < size) :
    (d.inTag e pending).Shorter size rest := by
  refine ⟨⟨every.nodes, every.opened⟩, left.le, fun e' pending' h => ?_⟩
  obtain ⟨rfl, rfl⟩ := Mode.tag.inj h
  exact ⟨he, left⟩

theorem endTag_shorter (every : d.Every (LiteralsShorter size) (fun _ => True) fun _ => True)
    (he : e.toNode.Shorter size) (selfClosing : Bool) (left : utf8Length rest < size) :
    (d.endTag e selfClosing).Shorter size rest := by
  refine ⟨every.endTag he selfClosing, left.le, fun e' pending' h => ?_⟩
  simp [endTag_mode] at h

theorem stepValue_shorter (every : d.Every (LiteralsShorter size) (fun _ => True) fun _ => True)
    (he : e.toNode.Shorter size) {name : String} (left : utf8Length cs < size)
    (h : stepValue hasNext e name d cs = some (d', rest)) : d'.Shorter size rest := by
  have left' : utf8Length rest < size :=
    (utf8Length_suffix (stepValue_suffix h).1).trans_lt left
  have bound : ∀ text, utf8Length text ≤ utf8Length cs →
      (d.inTag (e.bind name (.literal (String.ofList text))) none).Shorter size rest := by
    intro text htext
    refine inTag_shorter every (bind_shorter he ?_) none left'
    rintro _ ⟨⟩
    rw [utf8ByteSize_ofList]
    exact htext.trans_lt left
  unfold stepValue at h
  split at h
  next hscan =>
    obtain ⟨rfl, rfl⟩ := Prod.mk.inj (Option.some.inj h)
    exact bound _ (Token.Value.scan?_text (.inl hscan))
  next hscan =>
    obtain ⟨rfl, rfl⟩ := Prod.mk.inj (Option.some.inj h)
    exact bound _ (Token.Value.scan?_text (.inr hscan))
  next =>
    split at h <;> try contradiction
    obtain ⟨rfl, rfl⟩ := Prod.mk.inj (Option.some.inj h)
    exact inTag_shorter every he _ left'
  next =>
    split at h <;> try contradiction
    obtain ⟨rfl, rfl⟩ := Prod.mk.inj (Option.some.inj h)
    exact endTag_shorter every (settle_shorter he (Nat.zero_lt_of_lt left) (some ⟨name, .named⟩)) _ left'

theorem stepName_shorter (every : d.Every (LiteralsShorter size) (fun _ => True) fun _ => True)
    (he : e.toNode.Shorter size) {pending : Option Pending} (left : utf8Length cs < size)
    (h : stepName hasNext e pending d cs = some (d', rest)) : d'.Shorter size rest := by
  have left' : utf8Length rest < size := (utf8Length_suffix (stepName_suffix h).1).trans_lt left
  have settled := settle_shorter he (Nat.zero_lt_of_lt left) pending
  unfold stepName at h
  split at h <;> try contradiction
  next =>
    obtain ⟨rfl, rfl⟩ := Prod.mk.inj (Option.some.inj h)
    exact endTag_shorter every settled _ left'
  next =>
    split at h <;> try contradiction
    obtain ⟨rfl, rfl⟩ := Prod.mk.inj (Option.some.inj h)
    exact inTag_shorter every he _ left'
  next =>
    split at h <;> try contradiction
    obtain ⟨rfl, rfl⟩ := Prod.mk.inj (Option.some.inj h)
    exact inTag_shorter every settled _ left'
  next =>
    obtain ⟨rfl, rfl⟩ := Prod.mk.inj (Option.some.inj h)
    exact inTag_shorter every settled _ left'

theorem takeContent_shorter (every : d.Every (LiteralsShorter size) (fun _ => True) fun _ => True)
    (hmode : d.mode = .content) (token : Token.Content) (left : utf8Length rest < size) :
    (d.takeContent token).Shorter size rest := by
  have same : ∀ d' : Draft, d'.Every (LiteralsShorter size) (fun _ => True) (fun _ => True) →
      d'.mode = .content → d'.Shorter size rest := fun d' every hmode =>
    ⟨every, left.le, fun e pending h => by simp [hmode] at h⟩
  cases token with
  | doctype => exact same d every hmode
  | commentStart => exact ⟨⟨every.nodes, every.opened⟩, left.le, fun e pending h => by simp [takeContent] at h⟩
  | closeTag name => exact same _ (every.closeNamed _) ((closeNamed_mode _).trans hmode)
  | openTag name =>
    refine @inTag_shorter d ⟨String.ofList name, [], []⟩ _ _ every ?_ none left
    exact ⟨by simp [LiteralsShorter], trivial⟩
  | text run =>
    simp only [takeContent]
    split
    · exact same d every hmode
    · exact same _ (every.add trivial) (by rw [add_eq_addAll, addAll_mode, hmode])

/-- A token that is read binds no literal that is as long as the text. -/
theorem step_shorter (h : d.Shorter size cs) (hcs : cs ≠ [])
    (hs : step hasNext d cs = some (d', rest)) : d'.Shorter size rest := by
  have less : utf8Length rest < size :=
    (utf8Length_suffix_lt (step_suffix hs).1 (step_length_lt hcs hs)).trans_le h.left
  unfold step at hs
  split at hs
  next hmode =>
    split at hs <;> obtain ⟨rfl, rfl⟩ := Prod.mk.inj (Option.some.inj hs)
    · exact ⟨⟨h.every.nodes, h.every.opened⟩, less.le, fun e pending h => by simp at h⟩
    · exact ⟨h.every, less.le, fun e pending h => by simp [hmode] at h⟩
  next e pending hmode =>
    obtain ⟨he, left⟩ := h.tag e pending hmode
    have left : utf8Length (dropBlanks cs) < size :=
      (utf8Length_suffix (Token.dropBlanks_suffix cs)).trans_lt left
    simp only [stepTag] at hs
    split at hs
    next =>
      obtain ⟨rfl, rfl⟩ := Prod.mk.inj (Option.some.inj hs)
      exact ⟨h.every, less.le, fun e' pending' h' => ⟨(h.tag e' pending' h').1, less⟩⟩
    next =>
      split at hs
      next => exact stepValue_shorter h.every he left hs
      next => exact stepName_shorter h.every he left hs
  next hmode =>
    obtain ⟨rfl, rfl⟩ := Prod.mk.inj (Option.some.inj hs)
    exact takeContent_shorter h.every hmode _ less

theorem readRun_shorter (h : d.Shorter size cs) (hr : readRun hasNext d cs = .ok d') :
    d'.Shorter size [] := by
  fun_induction readRun hasNext d cs with
  | case1 => exact (by injection hr with hr; exact hr ▸ h)
  | case2 => contradiction
  | case3 d cs hcs d₁ rest hstep ih => exact ih (step_shorter h hcs hstep) hr

theorem finish_shorter (h : d.Shorter size []) : Node.ShorterAll size d.finish := by
  unfold finish
  split
  next e pending hmode =>
    obtain ⟨he, left⟩ := h.tag e pending hmode
    have ended : Draft.Every (LiteralsShorter size) (fun _ => True) (fun _ => True)
        { d with opened := settle e pending :: d.opened, mode := .content } := by
      refine ⟨h.every.nodes, ?_⟩
      rintro o (_ | ⟨_, ho⟩)
      · exact settle_shorter he left pending
      · exact h.every.opened o ho
    exact (ended.close _).nodes
  next => exact (h.every.close _).nodes

end Draft

/-- A literal in markup is shorter than the markup. -/
theorem Skeleton.parse_shorter {markup : String} {s : Skeleton} (h : parse [markup] = .ok s) :
    Node.ShorterAll markup.utf8ByteSize s.nodes := by
  obtain ⟨d, hr, rfl⟩ := parse_ok h
  obtain ⟨run, d₁, hrun, hread, hrest⟩ := readFragments_cons hr
  obtain rfl := Except.ok.inj hrun
  have start : Draft.Shorter markup.utf8ByteSize markup.toList {} :=
    ⟨⟨trivial, by simp⟩, (utf8Length_toList markup).le, by simp⟩
  rcases hrest with ⟨-, rfl⟩ | ⟨more, -⟩
  · exact Draft.finish_shorter (Draft.readRun_shorter start hread)
  · contradiction

end LiveTemplate
