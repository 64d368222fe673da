import LiveTemplate.Proofs.Bones
import LiveTemplate.Proofs.Escaping
import LiveTemplate.Proofs.Outputs

/-!
# Printed output is read back

Output is confined when its tags and attribute names are names of the grammar and no
literal in it can end the place where it stands. Whatever the texts from values are, the
reader gets past confined output that was printed with escapes, and its bones are the
elements of the output, each with the attributes that were written. This is shown piece by
piece: a text, the attributes of a start tag, an element around what has been passed.
-/
namespace LiveTemplate
open Text

/-! ### Confined output -/

namespace AttrOutput

/-- What stands between the quotes where values are escaped. -/
def written : AttrOutput → String
  | .literal s => s
  | .dynamic s => escape attributeEscapes s
  | .present => ""

/-- No literal ends the quotes around it. -/
def Confined : AttrOutput → Prop
  | .literal s => '"' ∉ s.toList
  | _ => True

theorem Confined.notMem_written {o : AttrOutput} (h : o.Confined) : '"' ∉ o.written.toList := by
  cases o with
  | literal s => exact h
  | dynamic s => exact notMem_escape (by decide) (by decide) s
  | present => simp [written]

end AttrOutput

/-- The attributes that are read where some are written one after the other. -/
def writtenAttrs (attrs : List (String × AttrOutput)) : List (String × AttrValue) :=
  Entries.ofList (attrs.map fun (name, o) => (name, .literal o.written))

def ConfinedAttrs (attrs : List (String × AttrOutput)) : Prop :=
  ∀ a ∈ attrs, IsAttrName a.1.toList ∧ a.2.Confined

namespace Output

mutual
/-- The elements of an output, with the attributes that are written. -/
def bones : Output → List Node
  | .element tag attrs children => [.element tag (writtenAttrs attrs) (bonesAll children)]
  | .literal _ => []
  | .dynamic _ => []
termination_by structural o => o

def bonesAll : List Output → List Node
  | [] => []
  | o :: rest => o.bones ++ bonesAll rest
termination_by structural os => os
end

mutual
def Confined : Output → Prop
  | .element tag attrs children =>
      IsTagName tag.toList ∧ ConfinedAttrs attrs ∧ (isVoidTag tag = true → children = []) ∧
        ConfinedAll children
  | .literal s => '<' ∉ s.toList
  | .dynamic _ => True
termination_by structural o => o

/-- Elements have names of the grammar, void ones no children, and no literal begins a
tag. -/
def ConfinedAll : List Output → Prop
  | [] => True
  | o :: rest => o.Confined ∧ ConfinedAll rest
termination_by structural os => os
end

theorem confinedAll_append {os ps : List Output} :
    ConfinedAll (os ++ ps) ↔ ConfinedAll os ∧ ConfinedAll ps := by
  induction os with
  | nil => simp [ConfinedAll]
  | cons o rest ih => simp [ConfinedAll, ih, and_assoc]

end Output

/-- The characters that end a start tag. -/
def Token.Tag.ending (selfClosing : Bool) : List Char := if selfClosing then ['/', '>'] else ['>']

namespace Draft

variable {d : Draft} {hasNext : Bool} {e : OpenElement} {pending : Option Pending}
  {name text rest : List Char}

/-! ### Start tags -/

/-- In a start tag, where no value is due. -/
def Idle (pending : Option Pending) : Prop := ∀ p ∈ pending, p.stage = .named

theorem idle_none : Idle none := by simp [Idle]

theorem idle_named (name : String) : Idle (some ⟨name, .named⟩) := by simp [Idle]

variable {cs input : List Char}

/-- Blanks in front do not matter where a name may stand, nor where a value is due. -/
theorem step_inTag (idle : Idle pending) (hdrop : dropBlanks cs = input) (hne : input ≠ []) :
    (d.inTag e pending).step hasNext cs =
      stepName hasNext e pending (d.inTag e pending) input := by
  simp only [step, inTag, stepTag, hdrop, if_neg hne]
  split
  next => simpa using idle _ rfl
  next => rfl

theorem step_valueDue {attr : String} (hdrop : dropBlanks cs = input) (hne : input ≠ []) :
    (d.inTag e (some ⟨attr, .valueDue⟩)).step hasNext cs =
      stepValue hasNext e attr (d.inTag e (some ⟨attr, .valueDue⟩)) input := by
  simp only [step, inTag, stepTag, hdrop, if_neg hne]

variable {gap : List Char}

/-- A name is the next attribute, with any blanks before it. -/
theorem readRun_name (idle : Idle pending) (hgap : ∀ c ∈ gap, isBlank c = true)
    (h : IsAttrName name) (stop : ∀ c ∈ rest.head?, Token.isAttrNameChar c = false) :
    (d.inTag e pending).readRun hasNext (gap ++ (name ++ rest)) =
      (d.inTag (settle e pending) (some ⟨String.ofList name, .named⟩)).readRun hasNext rest := by
  have hdrop : dropBlanks (gap ++ (name ++ rest)) = name ++ rest :=
    (dropBlanks_append hgap).trans (Token.dropBlanks_attrName h)
  have hne : name ++ rest ≠ [] := List.append_ne_nil_of_left_ne_nil h.ne_nil rest
  refine readRun_step (List.append_ne_nil_of_right_ne_nil gap hne) ?_
  rw [step_inTag idle hdrop hne, stepName, Token.Tag.scan?_attrName h stop]
  rfl

/-- Behind a name an equals sign makes a value due. -/
theorem readRun_equals (attr : String) (hgap : ∀ c ∈ gap, isBlank c = true) :
    (d.inTag e (some ⟨attr, .named⟩)).readRun hasNext (gap ++ '=' :: rest) =
      (d.inTag e (some ⟨attr, .valueDue⟩)).readRun hasNext rest := by
  have hdrop : dropBlanks (gap ++ '=' :: rest) = '=' :: rest := dropBlanks_append hgap
  refine readRun_step (by simp) ?_
  rw [step_inTag (idle_named attr) hdrop (List.cons_ne_nil _ _)]
  rfl

/-- A text in quotes is the value that is due. -/
theorem readRun_quoted (attr : String) (hgap : ∀ c ∈ gap, isBlank c = true) {quote : Char}
    (hquote : Token.isQuote quote = true) (h : quote ∉ text) :
    (d.inTag e (some ⟨attr, .valueDue⟩)).readRun hasNext (gap ++ quote :: (text ++ quote :: rest)) =
      (d.inTag (e.bind attr (.literal (String.ofList text))) none).readRun hasNext rest := by
  have hdrop : dropBlanks (gap ++ quote :: (text ++ quote :: rest)) =
      quote :: (text ++ quote :: rest) := by
    rw [dropBlanks_append hgap, dropBlanks, List.dropWhile_cons_of_neg]
    simp [Token.isBlank_of_isQuote hquote]
  refine readRun_step (by simp) ?_
  rw [step_valueDue hdrop (List.cons_ne_nil _ _), stepValue, Token.Value.scan?_quoted hquote h]
  rfl

/-- The end of the tag, with any blanks before it. -/
theorem readRun_tagEnd (idle : Idle pending) (hgap : ∀ c ∈ gap, isBlank c = true)
    (selfClosing : Bool) :
    (d.inTag e pending).readRun hasNext (gap ++ (Token.Tag.ending selfClosing ++ rest)) =
      (d.endTag (settle e pending) selfClosing).readRun hasNext rest := by
  have hdrop : dropBlanks (gap ++ (Token.Tag.ending selfClosing ++ rest)) =
      Token.Tag.ending selfClosing ++ rest := by
    rw [dropBlanks_append hgap]
    cases selfClosing <;> rfl
  have hne : Token.Tag.ending selfClosing ++ rest ≠ [] := by
    cases selfClosing <;> exact List.cons_ne_nil _ _
  refine readRun_step (List.append_ne_nil_of_right_ne_nil gap hne) ?_
  rw [step_inTag idle hdrop hne]
  cases selfClosing <;> rfl

variable {options : MarkupOptions}

/-- An attribute is bound to what is written. That may happen only when the reader goes on,
since a name may still be followed by a value. -/
theorem readRun_attr (escaped : options.escapeDynamic = true) (idle : Idle pending) {attr : String}
    {o : AttrOutput} (h : IsAttrName attr.toList) (confined : o.Confined)
    (stop : ∀ c ∈ rest.head?, Token.isAttrNameChar c = false) :
    ∃ e' pending', Idle pending' ∧
      settle e' pending' = (settle e pending).bind attr (.literal o.written) ∧
      (d.inTag e pending).readRun hasNext ((o.print options attr).toList ++ rest) =
        (d.inTag e' pending').readRun hasNext rest := by
  have hquote := confined.notMem_written
  have space : ∀ c ∈ [' '], isBlank c = true := List.forall_mem_singleton.mpr rfl
  have nothing : ∀ c ∈ ([] : List Char), isBlank c = true := List.forall_mem_nil _
  have quoted : (d.inTag e pending).readRun hasNext
        (' ' :: (attr.toList ++ '=' :: '"' :: (o.written.toList ++ '"' :: rest))) =
      (d.inTag ((settle e pending).bind attr (.literal o.written)) none).readRun hasNext rest := by
    rw [← List.singleton_append, readRun_name idle space h (by simp [Token.isAttrNameChar])]
    refine (readRun_equals _ nothing).trans ((readRun_quoted _ nothing rfl hquote).trans ?_)
    simp
  cases o with
  | literal s =>
    refine ⟨(settle e pending).bind attr (.literal s), none, idle_none, rfl, ?_⟩
    simpa [AttrOutput.print, AttrOutput.written] using quoted
  | dynamic s =>
    refine ⟨(settle e pending).bind attr (.literal (escape attributeEscapes s)), none, idle_none, rfl, ?_⟩
    simpa [AttrOutput.print, AttrOutput.written, escaped] using quoted
  | present =>
    have named := @readRun_name d hasNext e pending _ _ _ idle space h stop
    refine ⟨settle e pending, some ⟨attr, .named⟩, idle_named attr, rfl, ?_⟩
    simpa [AttrOutput.print] using named

theorem readRun_attrs (escaped : options.escapeDynamic = true) {attrs : List (String × AttrOutput)}
    (confined : ConfinedAttrs attrs) (idle : Idle pending)
    (stop : ∀ c ∈ rest.head?, Token.isAttrNameChar c = false) :
    ∃ e' pending', Idle pending' ∧
      settle e' pending' = (attrs.map fun (name, o) => (name, AttrValue.literal o.written)).foldl
        (fun e p => e.bind p.1 p.2) (settle e pending) ∧
      (d.inTag e pending).readRun hasNext ((printAttrs options attrs).toList ++ rest) =
        (d.inTag e' pending').readRun hasNext rest := by
  induction attrs generalizing e pending with
  | nil => exact ⟨e, pending, idle, rfl, by simp [printAttrs]⟩
  | cons a as ih =>
    obtain ⟨attr, o⟩ := a
    have hprint : (printAttrs options ((attr, o) :: as)).toList ++ rest =
        (o.print options attr).toList ++ ((printAttrs options as).toList ++ rest) := by
      simp [printAttrs]
    -- behind an attribute stands the space of the next one, or what follows them all
    have hnext : ∀ c ∈ ((printAttrs options as).toList ++ rest).head?, Token.isAttrNameChar c = false := by
      cases as with
      | nil => simpa [printAttrs] using stop
      | cons a' as =>
        obtain ⟨attr', o'⟩ := a'
        cases o' <;> simp [printAttrs, AttrOutput.print, Token.isAttrNameChar]
    obtain ⟨h, hc⟩ := confined _ (List.mem_cons_self ..)
    obtain ⟨e₁, pending₁, idle₁, settled₁, reads₁⟩ :=
      @readRun_attr d hasNext e pending _ options escaped idle attr o h hc hnext
    obtain ⟨e', pending', idle', settled', reads'⟩ :=
      @ih e₁ pending₁ (fun a ha => confined a (List.mem_cons_of_mem _ ha)) idle₁
    exact ⟨e', pending', idle', by rw [settled', settled₁]; rfl, by rw [hprint, reads₁, reads']⟩

theorem foldl_bind (pairs : List (String × AttrValue)) (e : OpenElement) :
    pairs.foldl (fun e p => e.bind p.1 p.2) e =
      ⟨e.tag, pairs.foldl (fun entries (name, value) => Entries.put name value entries) e.attrs,
        e.children⟩ := by
  induction pairs generalizing e with
  | nil => rfl
  | cons p rest ih => exact ih _

/-- A start tag is read with the attributes that are written in it. -/
theorem readRun_startTag (escaped : options.escapeDynamic = true) (tag : String)
    {attrs : List (String × AttrOutput)} (confined : ConfinedAttrs attrs) (selfClosing : Bool) :
    (d.takeContent (.openTag tag.toList)).readRun hasNext
        ((printAttrs options attrs).toList ++ (Token.Tag.ending selfClosing ++ rest)) =
      (d.endTag { tag := tag, attrs := writtenAttrs attrs } selfClosing).readRun hasNext rest := by
  obtain ⟨e', pending', idle', settled, reads⟩ := @readRun_attrs d hasNext { tag := tag } none
    (Token.Tag.ending selfClosing ++ rest) options escaped attrs confined idle_none
    (by cases selfClosing <;> simp [Token.Tag.ending, Token.isAttrNameChar])
  have hopen : d.takeContent (.openTag tag.toList) = d.inTag { tag := tag } none := by
    simp [takeContent]
  have hend := @readRun_tagEnd d hasNext e' pending' rest [] idle' (by simp) selfClosing
  rw [List.nil_append] at hend
  rw [hopen, reads, hend, settled, foldl_bind]
  rfl

end Draft

/-- The name of a tag ends where its attributes begin, or the start tag ends. -/
theorem printAttrs_stops (options : MarkupOptions) (attrs : List (String × AttrOutput))
    (selfClosing : Bool) (rest : List Char) :
    ∀ c ∈ ((printAttrs options attrs).toList ++ (Token.Tag.ending selfClosing ++ rest)).head?,
      Token.isTagNameChar c = false := by
  cases attrs with
  | nil => cases selfClosing <;> simp [printAttrs, Token.Tag.ending, Token.isTagNameChar]
  | cons a as =>
    obtain ⟨attr, o⟩ := a
    cases o <;> simp [printAttrs, AttrOutput.print, Token.isTagNameChar]

/-! ### What the reader gets past -/

/-- Among content the reader gets past a run, with these bones added. It may leave text for
later, which nothing that follows makes a tag. -/
def Passes (run : List Char) (ns : List Node) : Prop :=
  ∀ (d : Draft) (hasNext : Bool) (before rest : List Char), d.mode = .content → '<' ∉ before →
    ∃ (d' : Draft) (before' : List Char), d'.mode = .content ∧ '<' ∉ before' ∧
      d'.bones = d.bones.addAll ns ∧
      d.readRun hasNext (before ++ (run ++ rest)) = d'.readRun hasNext (before' ++ rest)

namespace Passes

variable {run run' : List Char} {ns ms : List Node} {options : MarkupOptions}
  {attrs : List (String × AttrOutput)} {tag : String}

theorem text (h : '<' ∉ run) : Passes run [] := by
  intro d hasNext before rest hmode hbefore
  exact ⟨d, before ++ run, hmode, by simp [hbefore, h], by simp, by simp⟩

theorem append (p : Passes run ns) (q : Passes run' ms) : Passes (run ++ run') (ns ++ ms) := by
  intro d hasNext before rest hmode hbefore
  obtain ⟨d₁, before₁, hmode₁, hbefore₁, bones₁, reads₁⟩ :=
    p d hasNext before (run' ++ rest) hmode hbefore
  obtain ⟨d₂, before₂, hmode₂, hbefore₂, bones₂, reads₂⟩ :=
    q d₁ hasNext before₁ rest hmode₁ hbefore₁
  refine ⟨d₂, before₂, hmode₂, hbefore₂, ?_, ?_⟩
  · rw [bones₂, bones₁, Draft.addAll_addAll]
  · rw [← reads₂, ← reads₁, List.append_assoc]

/-- The reader gets to the end of a start tag. -/
theorem startTag (escaped : options.escapeDynamic = true) (named : IsTagName tag.toList)
    (confined : ConfinedAttrs attrs) (selfClosing : Bool) {d : Draft} {hasNext : Bool}
    {before : List Char} (rest : List Char) (hmode : d.mode = .content) (hbefore : '<' ∉ before) :
    ∃ d' : Draft, d'.mode = .content ∧ d'.bones = d.bones ∧
      d.readRun hasNext (before ++ '<' :: (tag.toList ++ ((printAttrs options attrs).toList ++
          (Token.Tag.ending selfClosing ++ rest)))) =
        (d'.endTag { tag := tag, attrs := writtenAttrs attrs } selfClosing).readRun hasNext rest := by
  obtain ⟨d', hmode', hbones, reads⟩ := @Draft.readRun_markup d hasNext _ _ hmode hbefore _ _
    (Token.Content.markup?_openTag named (printAttrs_stops options attrs selfClosing rest))
  exact ⟨d', hmode', hbones, reads.trans (Draft.readRun_startTag escaped tag confined selfClosing)⟩

/-- A void element is finished at the end of its start tag. -/
theorem voidElement (escaped : options.escapeDynamic = true) (named : IsTagName tag.toList)
    (confined : ConfinedAttrs attrs) (void : isVoidTag tag = true) (selfClosing : Bool) :
    Passes ('<' :: (tag.toList ++ ((printAttrs options attrs).toList ++
      Token.Tag.ending selfClosing))) [.element tag (writtenAttrs attrs) []] := by
  intro d hasNext before rest hmode hbefore
  obtain ⟨d', hmode', hbones, reads⟩ :=
    @startTag _ _ _ escaped named confined selfClosing d hasNext before rest hmode hbefore
  have hend : d'.endTag { tag := tag, attrs := writtenAttrs attrs } selfClosing =
      d'.addAll [.element tag (writtenAttrs attrs) []] := by
    rw [Draft.endTag, if_pos (by simp [void])]
    obtain ⟨nodes, opened, mode⟩ := d'
    obtain rfl : mode = .content := hmode'
    rfl
  refine ⟨d'.addAll [.element tag (writtenAttrs attrs) []], [], (Draft.addAll_mode _).trans hmode',
    by simp, ?_, ?_⟩
  · rw [Draft.bones_addAll, hbones]
    rfl
  · rw [List.nil_append, ← hend, ← reads]
    simp

/-- An element that is not void is finished by its closing tag, if the reader gets from the start
tag to the closing one with what stands in between as its children. -/
theorem around (escaped : options.escapeDynamic = true) (named : IsTagName tag.toList)
    (confined : ConfinedAttrs attrs) (void : isVoidTag tag = false)
    (inner : ∀ (d : Draft) (hasNext : Bool) (rest : List Char), d.mode = .content →
      ∃ d' : Draft, d'.mode = .content ∧ d'.bones = d.bones.addAll ns ∧
        d.readRun hasNext (run ++ ((Markup.closingTag tag).toList ++ rest)) =
          (d'.closeNamed tag).readRun hasNext rest) :
    Passes ('<' :: (tag.toList ++ ((printAttrs options attrs).toList ++ '>' ::
      (run ++ (Markup.closingTag tag).toList)))) [.element tag (writtenAttrs attrs) ns] := by
  intro d hasNext before rest hmode hbefore
  obtain ⟨d₁, hmode₁, bones₁, reads₁⟩ := @startTag _ _ _ escaped named confined false d hasNext before
    (run ++ ((Markup.closingTag tag).toList ++ rest)) hmode hbefore
  obtain ⟨nodes, opened, mode⟩ := d₁
  obtain rfl : mode = .content := hmode₁
  -- the element is the innermost that is open while the children are read
  have hend : (⟨nodes, opened, .content⟩ : Draft).endTag { tag := tag, attrs := writtenAttrs attrs } false =
      ⟨nodes, { tag := tag, attrs := writtenAttrs attrs } :: opened, .content⟩ := by
    rw [Draft.endTag, if_neg (by simp [void])]
  rw [hend] at reads₁
  obtain ⟨d₂, hmode₂, bones₂, reads₂⟩ :=
    inner ⟨nodes, { tag := tag, attrs := writtenAttrs attrs } :: opened, .content⟩ hasNext rest rfl
  have hbones : (d₂.closeNamed tag).bones = d.bones.addAll [.element tag (writtenAttrs attrs) ns] := by
    rw [Draft.bones_closeNamed, bones₂, ← bones₁]
    exact @Draft.closeNamed_innermost (Node.bonesAll nodes) ⟨tag, writtenAttrs attrs, ns⟩
      (opened.map OpenElement.bones) .content
  refine ⟨d₂.closeNamed tag, [], (Draft.closeNamed_mode tag).trans hmode₂, by simp, hbones, ?_⟩
  rw [List.nil_append, ← reads₂, ← reads₁]
  simp [Token.Tag.ending]

theorem element (escaped : options.escapeDynamic = true) (named : IsTagName tag.toList)
    (confined : ConfinedAttrs attrs) (void : isVoidTag tag = false) (inner : Passes run ns) :
    Passes ('<' :: (tag.toList ++ ((printAttrs options attrs).toList ++ '>' ::
      (run ++ (Markup.closingTag tag).toList)))) [.element tag (writtenAttrs attrs) ns] := by
  refine around escaped named confined void fun d hasNext rest hmode => ?_
  obtain ⟨d₁, before, hmode₁, hbefore, bones₁, reads₁⟩ :=
    inner d hasNext [] ((Markup.closingTag tag).toList ++ rest) hmode (by simp)
  obtain ⟨d₂, hmode₂, bones₂, reads₂⟩ := @Draft.readRun_markup d₁ hasNext _ _ hmode₁ hbefore _ _
    (@Token.Content.markup?_closeTag _ rest named)
  refine ⟨d₂, hmode₂, bones₂.trans bones₁, ?_⟩
  have hclosing : (Markup.closingTag tag).toList ++ rest = '<' :: '/' :: (tag.toList ++ '>' :: rest) := by
    simp [Markup.closingTag]
  rw [List.nil_append] at reads₁
  rw [reads₁, hclosing, reads₂, Draft.takeContent, String.ofList_toList]

end Passes

namespace Skeleton

/-- A run that the reader gets through, with these bones added, has the bones as a skeleton. -/
theorem parse_of_readRun {m : String} {d : Draft} {ns : List Node} (hmode : d.mode = .content)
    (hbones : d.bones = ({} : Draft).bones.addAll ns)
    (reads : ({} : Draft).readRun false m.toList = .ok d) :
    ∃ s, parse [m] = .ok s ∧ Node.bonesAll s.nodes = ns := by
  have hread : readFragments 0 none {} [m] = .ok d := by
    simp [readFragments, behindQuote, reads, Except.mapError, bind, Except.bind]
  have hopened : d.opened = [] := by
    simpa [Draft.bones, Draft.addAll] using congrArg Draft.opened hbones
  have hnodes : Node.bonesAll d.nodes = ns := by
    simpa [Draft.bones, Draft.addAll, Node.bonesAll] using congrArg Draft.nodes hbones
  refine ⟨⟨d.finish, 0⟩, ?_, ?_⟩
  · simp [parse, hread, bind, Except.bind, pure, Except.pure]
  · have hfinish : d.finish = d.nodes := by
      rw [Draft.finish, hmode]
      simp [hopened, Draft.close]
    simpa [hfinish] using hnodes

end Skeleton

namespace Output

variable {options : MarkupOptions}

mutual
theorem print_passes (escaped : options.escapeDynamic = true) : (o : Output) → o.Confined →
    Passes (o.print options).toList o.bones
  | .literal s, confined => Passes.text confined
  | .dynamic s, _ => by
      have hprint : print options (.dynamic s) = escape textEscapes s := by simp [print, escaped]
      rw [hprint]
      exact Passes.text (notMem_escape (by decide) (by decide) s)
  | .element tag attrs children, ⟨named, confined, void, kids⟩ => by
      have inner := printAll_passes escaped children kids
      cases hvoid : isVoidTag tag with
      | true =>
        obtain rfl := void hvoid
        have p := Passes.voidElement escaped named confined hvoid options.selfCloseVoid
        cases hself : options.selfCloseVoid <;>
          simpa [print, Markup.emptyEnd, hvoid, hself, bones, bonesAll, Token.Tag.ending] using p
      | false =>
        have p := Passes.element escaped named confined hvoid inner
        cases children with
        | nil => simpa [print, Markup.emptyEnd, hvoid, bones, printAll] using p
        | cons o rest => simpa [print, bones] using p
termination_by structural o => o

theorem printAll_passes (escaped : options.escapeDynamic = true) : (os : List Output) →
    ConfinedAll os → Passes (printAll options os).toList (bonesAll os)
  | [], _ => Passes.text (by simp [printAll])
  | o :: rest, ⟨confined, confinedRest⟩ => by
      rw [printAll, String.toList_append, bonesAll]
      exact (print_passes escaped o confined).append (printAll_passes escaped rest confinedRest)
termination_by structural os => os
end

/-- Confined output that is printed with escapes can be read, and its bones come back. -/
theorem parse_printAll (escaped : options.escapeDynamic = true) {os : List Output}
    (confined : ConfinedAll os) :
    ∃ s, Skeleton.parse [printAll options os] = .ok s ∧ Node.bonesAll s.nodes = bonesAll os := by
  obtain ⟨d₁, before, hmode₁, hbefore, bones₁, reads₁⟩ :=
    printAll_passes escaped os confined {} false [] [] rfl (by simp)
  obtain ⟨d, hmode, hbones, reads⟩ := @Draft.readRun_text d₁ false before hmode₁ hbefore
  rw [List.nil_append, List.append_nil, List.append_nil] at reads₁
  exact Skeleton.parse_of_readRun hmode (hbones.trans bones₁) (reads₁.trans reads)

end Output

end LiveTemplate
