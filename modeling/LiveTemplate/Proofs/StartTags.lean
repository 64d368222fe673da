import LiveTemplate.Proofs.Canonical

/-!
# How start tags may be written

An attribute may be written in many ways: with or without a value, with blanks around the equals
sign, in either kind of quotes or in none, with a hole for a value or for a whole mapping, and with
any blanks in front. None of this matters. The element gets the pairs of name and value in the order
in which they are written, where a name that comes again keeps its place and takes the last value.
The one thing to heed is that a slash right behind an unquoted value is part of the value.
-/
namespace LiveTemplate
open Text

/-! ### Characters and holes -/

/-- What is read, with nothing in the place of a hole. -/
abbrev Source := List (Option Char)

namespace Source

def ofChars (cs : List Char) : Source := cs.map some

@[simp] theorem ofChars_nil : ofChars [] = [] := rfl

@[simp] theorem ofChars_cons (c : Char) (cs : List Char) : ofChars (c :: cs) = some c :: ofChars cs :=
  rfl

@[simp] theorem ofChars_append (cs ds : List Char) : ofChars (cs ++ ds) = ofChars cs ++ ofChars ds :=
  List.map_append

/-- The run in front of the first hole, and the runs behind the holes. -/
def runs : Source → List Char × List (List Char)
  | [] => ([], [])
  | some c :: rest => (c :: (runs rest).1, (runs rest).2)
  | none :: rest => ([], (runs rest).1 :: (runs rest).2)

/-- The run in front of the first hole. -/
def ahead (source : Source) : List Char := (runs source).1

/-- The fragments between which the holes are. -/
def fragments (source : Source) : List String :=
  ((runs source).1 :: (runs source).2).map String.ofList

def holes (source : Source) : Nat := source.count none

@[simp] theorem holes_nil : holes [] = 0 := rfl

@[simp] theorem holes_cons_some (c : Char) (rest : Source) : holes (some c :: rest) = holes rest := by
  simp [holes]

@[simp] theorem holes_cons_none (rest : Source) : holes (none :: rest) = holes rest + 1 := by
  simp [holes]

@[simp] theorem holes_append (source more : Source) :
    holes (source ++ more) = holes source + holes more := List.count_append

@[simp] theorem holes_ofChars (cs : List Char) : holes (ofChars cs) = 0 := by
  induction cs with
  | nil => rfl
  | cons c cs ih => simpa using ih

theorem runs_ofChars (cs : List Char) (after : Source) :
    runs (ofChars cs ++ after) = (cs ++ after.ahead, (runs after).2) := by
  induction cs with
  | nil => rfl
  | cons c cs ih => simp [runs, ih]

theorem length_runs (source : Source) : (runs source).2.length = source.holes := by
  induction source with
  | nil => rfl
  | cons c rest ih => cases c <;> simp_all [runs, holes]

end Source

namespace Draft
open Source

variable {d d' d₁ d₂ : Draft} {index : Nat} {cs : List Char} {after : Source}

/-- What comes of the fragments does not depend on where in its fragment a run begins. -/
theorem readFragments_toOption {awaited : Option (Nat × Char)} {fragment : String}
    {rest : List String} {run : List Char}
    (h : Skeleton.behindQuote awaited fragment = .ok run) :
    (Skeleton.readFragments index awaited d (fragment :: rest)).toOption =
      (d.readRun (!rest.isEmpty) run).toOption.bind fun d' =>
        if rest.isEmpty then some d'
        else (d'.takeHole index).bind fun taken =>
          (Skeleton.readFragments (index + 1) (taken.2.map (index, ·)) taken.1 rest).toOption := by
  simp only [Skeleton.readFragments, h, bind, Except.bind]
  cases d.readRun (!rest.isEmpty) run with
  | error unread => rfl
  | ok d' =>
    simp only [Except.mapError, Except.toOption, Option.bind_some]
    by_cases hrest : rest.isEmpty
    · simp [hrest]
    · cases d'.takeHole index <;> simp [hrest]

/-- The rest of a source read into a draft, with the holes numbered from the index on. -/
def readFrom (index : Nat) (d : Draft) (source : Source) : Option Draft :=
  (Skeleton.readFragments index none d source.fragments).toOption

theorem readFrom_eq (source : Source) : d.readFrom index source =
    (d.readRun (!(runs source).2.isEmpty) source.ahead).toOption.bind fun d' =>
      if (runs source).2.isEmpty then some d'
      else (d'.takeHole index).bind fun taken =>
        (Skeleton.readFragments (index + 1) (taken.2.map (index, ·)) taken.1
          ((runs source).2.map String.ofList)).toOption := by
  have hrun : Skeleton.behindQuote none (String.ofList source.ahead) = .ok source.ahead := by
    simp [Skeleton.behindQuote]
  have h := @readFragments_toOption d index none _ ((runs source).2.map String.ofList) _ hrun
  rwa [List.isEmpty_map] at h

/-- A run that is read on its own. -/
theorem readFrom_run (h : ∀ hasNext, d.readRun hasNext (cs ++ after.ahead) =
    d'.readRun hasNext after.ahead) :
    d.readFrom index (ofChars cs ++ after) = d'.readFrom index after := by
  rw [readFrom_eq, readFrom_eq, ahead, runs_ofChars, h]

/-- A run up to a hole, with the quote behind it that was opened in front of it. -/
theorem readFrom_hole (h : d.readRun true cs = .ok d₁) {quote : Option Char}
    (take : d₁.takeHole index = some (d₂, quote)) :
    d.readFrom index (ofChars cs ++ none :: (ofChars quote.toList ++ after)) =
      d₂.readFrom (index + 1) after := by
  have hruns : runs (ofChars cs ++ none :: (ofChars quote.toList ++ after)) =
      (cs, (quote.toList ++ after.ahead) :: (runs after).2) := by
    rw [runs_ofChars, ahead, runs, runs_ofChars, List.append_nil]
  have hrest : Skeleton.behindQuote (quote.map (index, ·))
      (String.ofList (quote.toList ++ after.ahead)) = .ok after.ahead := by
    cases quote <;> simp [Skeleton.behindQuote]
  rw [readFrom_eq, readFrom_eq, ahead, hruns]
  simp only [List.isEmpty_cons, Bool.not_false, h, Except.toOption, Option.bind_some, take,
    Bool.false_eq_true, if_false, List.map_cons]
  have next := @readFragments_toOption d₂ (index + 1) _ _ ((runs after).2.map String.ofList) _ hrest
  rwa [List.isEmpty_map] at next

end Draft

/-! ### Attributes -/

instance : DecidablePred IsAttrName := fun cs =>
  decidable_of_iff (Token.Tag.scan? cs = some (.name cs, []))
    ⟨Token.Tag.scan?_name, fun h => by simpa using @Token.Tag.scan?_attrName cs [] h (by simp)⟩

/-- A value behind an equals sign. -/
inductive ValueForm where
  | quoted (quote : Char) (text : List Char)
  | unquoted (text : List Char)
  | hole
  | quotedHole (quote : Char)

namespace ValueForm
open Source

def source : ValueForm → Source
  | .quoted quote text => ofChars (quote :: (text ++ [quote]))
  | .unquoted text => ofChars text
  | .hole => [none]
  | .quotedHole quote => [some quote, none, some quote]

/-- The value, if it is a hole the one of that index. -/
def value (index : Nat) : ValueForm → AttrValue
  | .quoted _ text => .literal (String.ofList text)
  | .unquoted text => .literal (String.ofList text)
  | .hole => .hole index
  | .quotedHole _ => .hole index

/-- A text in quotes has no such quote in it; one without quotes has no blank and no closing bracket
in it, and does not start with a quote. -/
def Proper : ValueForm → Prop
  | .quoted quote text => Token.isQuote quote = true ∧ quote ∉ text
  | .unquoted text => text ≠ [] ∧ (∀ c ∈ text, Token.isUnquotedChar c = true) ∧
      text.head?.any Token.isQuote = false
  | .hole => True
  | .quotedHole quote => Token.isQuote quote = true

instance : DecidablePred Proper
  | .quoted .. => inferInstanceAs (Decidable (_ ∧ _))
  | .unquoted text =>
      have := List.decidableBAll (fun c => Token.isUnquotedChar c = true) text
      inferInstanceAs (Decidable (_ ∧ _ ∧ _))
  | .hole => inferInstanceAs (Decidable True)
  | .quotedHole _ => inferInstanceAs (Decidable (_ = true))

end ValueForm

inductive AttrForm where
  | bare (name : List Char)
  /-- Blanks may stand on either side of the equals sign. -/
  | valued (name before behind : List Char) (value : ValueForm)
  /-- Blanks may stand between the dots and the hole. -/
  | spread (behind : List Char)

namespace AttrForm
open Source

def source : AttrForm → Source
  | .bare name => ofChars name
  | .valued name before behind value =>
      ofChars (name ++ (before ++ '=' :: behind)) ++ value.source
  | .spread behind => ofChars ('.' :: '.' :: '.' :: behind) ++ [none]

def name : AttrForm → String
  | .bare name => String.ofList name
  | .valued name _ _ _ => String.ofList name
  | .spread _ => Binding.spreadName

def value (index : Nat) : AttrForm → AttrValue
  | .bare _ => .literal ""
  | .valued _ _ _ value => value.value index
  | .spread _ => .hole index

def isUnquoted : AttrForm → Bool
  | .valued _ _ _ (.unquoted _) => true
  | _ => false

def Proper : AttrForm → Prop
  | .bare name => IsAttrName name
  | .valued name before behind value =>
      IsAttrName name ∧ (∀ c ∈ before ++ behind, isBlank c = true) ∧ value.Proper
  | .spread behind => ∀ c ∈ behind, isBlank c = true

instance : DecidablePred Proper
  | .bare _ => inferInstanceAs (Decidable (IsAttrName _))
  | .valued _ before behind _ =>
      have := List.decidableBAll (fun c => isBlank c = true) (before ++ behind)
      inferInstanceAs (Decidable (IsAttrName _ ∧ _ ∧ _))
  | .spread behind => List.decidableBAll (fun c => isBlank c = true) behind

/-- Where a character follows that is no part of the attribute. -/
def Ends (a : AttrForm) (after : Source) : Prop :=
  ∃ c rest, after = some c :: rest ∧ Token.isAttrNameChar c = false ∧
    (a.isUnquoted = true → Token.isUnquotedChar c = false)

end AttrForm

namespace Draft
open Source

variable {d : Draft} {e : OpenElement} {pending : Option Pending} {index : Nat}
  {gap text rest : List Char} {after : Source} {hasNext : Bool}

@[simp] theorem inTag_inTag (e e' : OpenElement) (pending pending' : Option Pending) :
    (d.inTag e pending).inTag e' pending' = d.inTag e' pending' := rfl

theorem readRun_unquoted (attr : String) (hgap : ∀ c ∈ gap, isBlank c = true)
    (proper : (ValueForm.unquoted text).Proper)
    (stop : ∀ c ∈ rest.head?, Token.isUnquotedChar c = false) :
    (d.inTag e (some ⟨attr, .valueDue⟩)).readRun hasNext (gap ++ (text ++ rest)) =
      (d.inTag (e.bind attr (.literal (String.ofList text))) none).readRun hasNext rest := by
  obtain ⟨hne, inside, unquoted⟩ := proper
  obtain ⟨c, cs, rfl⟩ := List.exists_cons_of_ne_nil hne
  have hc := inside c (List.mem_cons_self ..)
  have hdrop : dropBlanks (gap ++ (c :: cs ++ rest)) = c :: cs ++ rest := by
    have hblank : isBlank c = false := by
      simp only [Token.isUnquotedChar, Bool.and_eq_true, Bool.not_eq_true'] at hc
      exact hc.1
    rw [dropBlanks_append hgap, dropBlanks, List.cons_append, List.dropWhile_cons_of_neg]
    simp [hblank]
  obtain ⟨htext, hrest⟩ := Token.span_append inside stop
  have hscan : Token.Value.scan? (c :: cs ++ rest) = some (.unquoted (c :: cs), rest) := by
    rw [List.cons_append] at htext hrest ⊢
    rw [Token.Value.scan?, if_neg (by simpa using unquoted), if_pos hc, htext, hrest]
  refine readRun_step (by simp) ?_
  rw [step_valueDue hdrop (List.cons_ne_nil _ _), stepValue, hscan]
  rfl

/-- Blanks in front of a hole change nothing. -/
theorem readRun_gap (hgap : ∀ c ∈ gap, isBlank c = true) :
    (d.inTag e pending).readRun hasNext gap = .ok (d.inTag e pending) := by
  by_cases hnil : gap = []
  · rw [hnil, readRun_nil]
  · have hdrop : dropBlanks gap = [] := List.dropWhile_eq_nil_iff.2 hgap
    have hstep : (d.inTag e pending).step hasNext gap = some (d.inTag e pending, []) := by
      simp [step, inTag, stepTag, hdrop]
    rw [readRun_step hnil hstep, readRun_nil]

theorem readRun_openQuote (attr : String) (hgap : ∀ c ∈ gap, isBlank c = true) {quote : Char}
    (hquote : Token.isQuote quote = true) :
    (d.inTag e (some ⟨attr, .valueDue⟩)).readRun true (gap ++ [quote]) =
      .ok (d.inTag e (some ⟨attr, .quoteOpen quote⟩)) := by
  have hdrop : dropBlanks (gap ++ [quote]) = [quote] := by
    rw [dropBlanks_append hgap, dropBlanks, List.dropWhile_cons_of_neg]
    simp [Token.isBlank_of_isQuote hquote]
  have hscan : Token.Value.scan? [quote] = some (.openQuote quote, []) := by
    simp [Token.Value.scan?, hquote, Token.Value.quoted?]
  have hstep : (d.inTag e (some ⟨attr, .valueDue⟩)).step true (gap ++ [quote]) =
      some (d.inTag e (some ⟨attr, .quoteOpen quote⟩), []) := by
    rw [step_valueDue hdrop (List.cons_ne_nil _ _), stepValue, hscan]
    rfl
  rw [readRun_step (by simp) hstep, readRun_nil]

theorem readRun_spread (idle : Idle pending) (hgap : ∀ c ∈ gap, isBlank c = true)
    {behind : List Char} (hbehind : ∀ c ∈ behind, isBlank c = true) :
    (d.inTag e pending).readRun true (gap ++ '.' :: '.' :: '.' :: behind) =
      .ok (d.inTag (settle e pending) (some ⟨Binding.spreadName, .valueDue⟩)) := by
  have hdrop : dropBlanks (gap ++ '.' :: '.' :: '.' :: behind) = '.' :: '.' :: '.' :: behind :=
    dropBlanks_append hgap
  have hscan : Token.Tag.scan? ('.' :: '.' :: '.' :: behind) = some (.ellipsis, behind) := rfl
  have hend : dropBlanks behind = [] := List.dropWhile_eq_nil_iff.2 hbehind
  have hstep : (d.inTag e pending).step true (gap ++ '.' :: '.' :: '.' :: behind) =
      some (d.inTag (settle e pending) (some ⟨Binding.spreadName, .valueDue⟩), behind) := by
    rw [step_inTag idle hdrop (List.cons_ne_nil _ _), stepName, hscan]
    simp only [hend, decide_true, Bool.and_self, if_true]
    rfl
  rw [readRun_step (by simp) hstep, readRun_gap hbehind]

/-- However a value is written, it is the value of the name that waits for one. -/
theorem readFrom_value {v : ValueForm} (proper : v.Proper) (attr : String)
    (hgap : ∀ c ∈ gap, isBlank c = true)
    (ends : ∀ text, v = .unquoted text → ∀ c ∈ after.ahead.head?, Token.isUnquotedChar c = false) :
    (d.inTag e (some ⟨attr, .valueDue⟩)).readFrom index (ofChars gap ++ (v.source ++ after)) =
      (d.inTag (e.bind attr (v.value index)) none).readFrom (index + v.source.holes) after := by
  cases v with
  | quoted quote text =>
    rw [ValueForm.source, holes_ofChars, Nat.add_zero, ← List.append_assoc, ← ofChars_append]
    refine readFrom_run fun hasNext => ?_
    rw [List.append_assoc, List.cons_append, List.append_assoc]
    exact readRun_quoted attr hgap proper.1 proper.2
  | unquoted text =>
    rw [ValueForm.source, holes_ofChars, Nat.add_zero, ← List.append_assoc, ← ofChars_append]
    refine readFrom_run fun hasNext => ?_
    rw [List.append_assoc]
    exact readRun_unquoted attr hgap proper (ends text rfl)
  | hole => exact @readFrom_hole _ _ _ index gap after (readRun_gap hgap) none rfl
  | quotedHole quote =>
    rw [ValueForm.source]
    have := @readFrom_hole (d.inTag e (some ⟨attr, .valueDue⟩)) _ _ index (gap ++ [quote]) after
      (readRun_openQuote attr hgap proper) (some quote) rfl
    simpa [ValueForm.value] using this

/-- However an attribute is written, the element gets the pair of its name and its value. That may
happen only when the reader goes on, since a name may still be followed by a value. -/
theorem readFrom_attr {a : AttrForm} (proper : a.Proper) (idle : Idle pending)
    (hgap : ∀ c ∈ gap, isBlank c = true) (ends : a.Ends after) :
    ∃ e' pending', Idle pending' ∧
      settle e' pending' = (settle e pending).bind a.name (a.value index) ∧
      (d.inTag e pending).readFrom index (ofChars gap ++ (a.source ++ after)) =
        (d.inTag e' pending').readFrom (index + a.source.holes) after := by
  obtain ⟨c, rest, rfl, hname, hunquoted⟩ := ends
  cases a with
  | bare name =>
    refine ⟨settle e pending, some ⟨String.ofList name, .named⟩, idle_named _, rfl, ?_⟩
    rw [AttrForm.source, holes_ofChars, Nat.add_zero, ← List.append_assoc, ← ofChars_append]
    refine readFrom_run fun hasNext => ?_
    rw [List.append_assoc]
    exact readRun_name idle hgap proper (by simpa [ahead, runs] using hname)
  | valued name before behind value =>
    obtain ⟨hproper, hblank, hvalue⟩ := proper
    have hbefore : ∀ c ∈ before, isBlank c = true := fun c hc => hblank c (List.mem_append_left _ hc)
    have hbehind : ∀ c ∈ behind, isBlank c = true := fun c hc => hblank c (List.mem_append_right _ hc)
    refine ⟨(settle e pending).bind (String.ofList name) (value.value index), none, idle_none, rfl, ?_⟩
    have stop : ∀ rest : List Char, ∀ c ∈ (before ++ '=' :: rest).head?,
        Token.isAttrNameChar c = false := by
      intro rest
      cases before with
      | nil => simp [Token.isAttrNameChar]
      | cons b _ =>
        have hb := hbefore b (List.mem_cons_self ..)
        rintro _ ⟨⟩
        exact Bool.eq_false_iff.2 fun h => by simp [Token.isBlank_of_isAttrNameChar h] at hb
    have valueDue : (d.inTag e pending).readFrom index
          (ofChars (gap ++ (name ++ (before ++ ['=']))) ++
            (ofChars behind ++ (value.source ++ some c :: rest))) =
        (d.inTag (settle e pending) (some ⟨String.ofList name, .valueDue⟩)).readFrom index
          (ofChars behind ++ (value.source ++ some c :: rest)) := by
      refine readFrom_run fun hasNext => ?_
      simp only [List.append_assoc, List.singleton_append]
      exact (readRun_name idle hgap hproper (stop _)).trans (readRun_equals _ hbefore)
    have hends : ∀ text, value = .unquoted text →
        ∀ c' ∈ (ahead (some c :: rest)).head?, Token.isUnquotedChar c' = false := by
      rintro text rfl _ ⟨⟩
      exact hunquoted rfl
    have hdue := @readFrom_value d (settle e pending) index behind (some c :: rest) value hvalue
      (String.ofList name) hbehind hends
    simpa [AttrForm.source] using valueDue.trans hdue
  | spread behind =>
    refine ⟨(settle e pending).bind Binding.spreadName (.hole index), none, idle_none, rfl, ?_⟩
    have := @readFrom_hole (d.inTag e pending) _ _ index (gap ++ '.' :: '.' :: '.' :: behind)
      (some c :: rest) (readRun_spread idle hgap proper) none rfl
    simpa [AttrForm.source] using this

end Draft

/-! ### Start tags -/

/-- A start tag, each attribute with the blanks in front of it, and the blanks in front of its end. -/
structure StartTag where
  name : List Char
  attrs : List (List Char × AttrForm)
  blanks : List Char
  selfClosing : Bool

namespace StartTag
open Source

def attrsSource : List (List Char × AttrForm) → Source
  | [] => []
  | (gap, a) :: rest => ofChars gap ++ (a.source ++ attrsSource rest)

def endSource (t : StartTag) : Source := ofChars (t.blanks ++ Token.Tag.ending t.selfClosing)

def source (t : StartTag) : Source :=
  ofChars ('<' :: t.name) ++ (attrsSource t.attrs ++ t.endSource)

/-- The names with their values in the order in which they are written, the holes numbered from the
index on. -/
def pairs (index : Nat) : List (List Char × AttrForm) → List (String × AttrValue)
  | [] => []
  | (_, a) :: rest => (a.name, a.value index) :: pairs (index + a.source.holes) rest

/-- The attributes that the element gets. -/
def entries (index : Nat) (t : StartTag) : List (String × AttrValue) :=
  Entries.ofList (pairs index t.attrs)

/-- Blanks part the attributes from the name and from each other. -/
structure Proper (t : StartTag) : Prop where
  name : IsTagName t.name
  attrs : ∀ a ∈ t.attrs, a.1 ≠ [] ∧ (∀ c ∈ a.1, isBlank c = true) ∧ a.2.Proper
  blanks : ∀ c ∈ t.blanks, isBlank c = true
  /-- A slash is part of an unquoted value that it stands right behind. -/
  apart : t.attrs.getLast?.any (·.2.isUnquoted) = true → t.selfClosing = true → t.blanks ≠ []

instance (t : StartTag) : Decidable t.Proper :=
  have blank := List.decidableBAll (fun c => isBlank c = true)
  have := blank t.blanks
  have (a : List Char × AttrForm) := blank a.1
  decidable_of_iff (IsTagName t.name ∧
      (∀ a ∈ t.attrs, a.1 ≠ [] ∧ (∀ c ∈ a.1, isBlank c = true) ∧ a.2.Proper) ∧
      (∀ c ∈ t.blanks, isBlank c = true) ∧
      (t.attrs.getLast?.any (·.2.isUnquoted) = true → t.selfClosing = true → t.blanks ≠ []))
    ⟨fun ⟨name, attrs, blanks, apart⟩ => ⟨name, attrs, blanks, apart⟩,
      fun ⟨name, attrs, blanks, apart⟩ => ⟨name, attrs, blanks, apart⟩⟩

end StartTag

namespace AttrForm
variable {a : AttrForm} {after : Source}

theorem Ends.of_blank {c : Char} (hc : isBlank c = true) : a.Ends (some c :: after) := by
  refine ⟨c, after, rfl, Bool.eq_false_iff.2 fun h => ?_, fun _ => ?_⟩
  · simp [Token.isBlank_of_isAttrNameChar h] at hc
  · simp [Token.isUnquotedChar, hc]

/-- An attribute ends where blanks or the end of the tag follow. -/
theorem Ends.of_end {t : StartTag} (hblanks : ∀ c ∈ t.blanks, isBlank c = true)
    (apart : a.isUnquoted = true → t.selfClosing = true → t.blanks ≠ []) : a.Ends (t.endSource ++ after) := by
  rw [StartTag.endSource]
  cases hb : t.blanks with
  | cons b bs => exact .of_blank (hblanks b (hb ▸ List.mem_cons_self ..))
  | nil =>
    cases hclose : t.selfClosing with
    | false => exact ⟨'>', _, rfl, by decide, fun _ => by decide⟩
    | true => exact ⟨'/', _, rfl, by decide, fun h => absurd hb (apart h hclose)⟩

end AttrForm

namespace Draft
open Source StartTag

variable {d : Draft} {e : OpenElement} {pending : Option Pending} {index : Nat} {after : Source}

theorem readFrom_attrs {attrs : List (List Char × AttrForm)}
    (proper : ∀ a ∈ attrs, a.1 ≠ [] ∧ (∀ c ∈ a.1, isBlank c = true) ∧ a.2.Proper)
    (ends : ∀ a ∈ attrs.getLast?, a.2.Ends after) (idle : Idle pending) :
    ∃ e' pending', Idle pending' ∧
      settle e' pending' = (pairs index attrs).foldl (fun e p => e.bind p.1 p.2) (settle e pending) ∧
      (d.inTag e pending).readFrom index (attrsSource attrs ++ after) =
        (d.inTag e' pending').readFrom (index + (attrsSource attrs).holes) after := by
  induction attrs generalizing e pending index with
  | nil => exact ⟨e, pending, idle, rfl, rfl⟩
  | cons a rest ih =>
    obtain ⟨gap, a⟩ := a
    obtain ⟨-, hgap, ha⟩ := proper _ (List.mem_cons_self ..)
    have properRest := fun a h => proper a (List.mem_cons_of_mem _ h)
    -- behind an attribute stand the blanks in front of the next one, or what follows them all
    have hends : a.Ends (attrsSource rest ++ after) := by
      cases rest with
      | nil => exact ends _ rfl
      | cons a' rest =>
        obtain ⟨gap', a'⟩ := a'
        obtain ⟨hne, hgap', -⟩ := properRest _ (List.mem_cons_self ..)
        obtain ⟨c, cs, rfl⟩ := List.exists_cons_of_ne_nil hne
        exact .of_blank (hgap' c (List.mem_cons_self ..))
    have endsRest : ∀ a ∈ rest.getLast?, a.2.Ends after := by
      intro b hb
      cases rest with
      | nil => simp at hb
      | cons a' rest => exact ends b (by rwa [List.getLast?_cons_cons])
    obtain ⟨e₁, pending₁, idle₁, settled₁, reads₁⟩ :=
      @readFrom_attr d e pending index gap _ a ha idle hgap hends
    obtain ⟨e', pending', idle', settled', reads'⟩ :=
      @ih e₁ pending₁ (index + a.source.holes) properRest endsRest idle₁
    refine ⟨e', pending', idle', by rw [settled', settled₁]; rfl, ?_⟩
    rw [attrsSource, List.append_assoc, List.append_assoc, reads₁, reads']
    simp [Nat.add_assoc]

/-- A start tag among content is read as the element with the pairs that are written in it. -/
theorem readFrom_startTag {t : StartTag} (proper : t.Proper) (hmode : d.mode = .content) :
    d.readFrom index (t.source ++ after) =
      (d.endTag { tag := String.ofList t.name, attrs := t.entries index } t.selfClosing).readFrom
        (index + t.source.holes) after := by
  have hends : ∀ a : AttrForm, (a.isUnquoted = true → t.selfClosing = true → t.blanks ≠ []) →
      a.Ends (t.endSource ++ after) := fun a => .of_end proper.blanks
  have stop : ∀ c ∈ (ahead (attrsSource t.attrs ++ (t.endSource ++ after))).head?,
      Token.isTagNameChar c = false := by
    have first : (AttrForm.bare []).Ends (attrsSource t.attrs ++ (t.endSource ++ after)) := by
      cases hattrs : t.attrs with
      | nil => exact hends _ (by simp [AttrForm.isUnquoted])
      | cons a rest =>
        obtain ⟨gap, a⟩ := a
        obtain ⟨hne, hgap, -⟩ := proper.attrs _ (hattrs ▸ List.mem_cons_self ..)
        obtain ⟨c, cs, rfl⟩ := List.exists_cons_of_ne_nil hne
        exact .of_blank (hgap c (List.mem_cons_self ..))
    obtain ⟨c, rest, heq, hc, -⟩ := first
    rw [heq]
    rintro _ ⟨⟩
    exact Bool.eq_false_iff.2 fun h => by simp [Token.isAttrNameChar_of_isTagNameChar h] at hc
  have opened : d.readFrom index (t.source ++ after) =
      (d.inTag { tag := String.ofList t.name } none).readFrom index
        (attrsSource t.attrs ++ (t.endSource ++ after)) := by
    rw [StartTag.source, List.append_assoc, List.append_assoc]
    refine readFrom_run fun hasNext => ?_
    exact readRun_bracket hmode (Token.Content.markup?_openTag proper.name stop)
  obtain ⟨e', pending', idle', settled, reads⟩ := @readFrom_attrs d { tag := String.ofList t.name }
    none index (t.endSource ++ after) t.attrs proper.attrs
    (fun a ha => hends a.2 fun h => proper.apart (by rw [Option.mem_def.1 ha]; exact h)) idle_none
  have ended : (d.inTag e' pending').readFrom (index + (attrsSource t.attrs).holes)
      (t.endSource ++ after) = (d.endTag (settle e' pending') t.selfClosing).readFrom
        (index + (attrsSource t.attrs).holes) after := by
    refine readFrom_run fun hasNext => ?_
    rw [List.append_assoc]
    exact readRun_tagEnd idle' proper.blanks t.selfClosing
  have hholes : t.source.holes = (attrsSource t.attrs).holes := by
    simp [StartTag.source, endSource]
  rw [opened, reads, ended, settled, foldl_bind, hholes]
  rfl

end Draft

namespace Skeleton
open Source

theorem parse_of_readFrom {source : Source} {d : Draft}
    (h : ({} : Draft).readFrom 0 source = some d) :
    parse source.fragments = .ok ⟨d.finish, source.holes⟩ := by
  have hlength : source.fragments.length - 1 = source.holes := by
    rw [← length_runs, fragments, List.length_map, List.length_cons, Nat.add_sub_cancel]
  rw [Draft.readFrom] at h
  cases hread : readFragments 0 none {} source.fragments with
  | error e => simp [hread, Except.toOption] at h
  | ok d' =>
    obtain rfl : d' = d := by simpa [hread, Except.toOption] using h
    simp [parse, hread, hlength, bind, Except.bind, pure, Except.pure]

/-- However a start tag is written, it is read as the element with the pairs that are written in it,
alone as well as in front of whatever follows. -/
theorem parse_startTag {t : StartTag} (proper : t.Proper) :
    parse t.source.fragments =
        .ok ⟨[.element (String.ofList t.name) (t.entries 0) []], t.source.holes⟩ ∧
      ∀ (d : Draft) (index : Nat) (after : Source), d.mode = .content →
        d.readFrom index (t.source ++ after) =
          (d.endTag { tag := String.ofList t.name, attrs := t.entries index } t.selfClosing).readFrom
            (index + t.source.holes) after := by
  have reads := fun (d : Draft) (index : Nat) (after : Source) (hmode : d.mode = .content) =>
    @Draft.readFrom_startTag d index after t proper hmode
  refine ⟨?_, reads⟩
  let d : Draft := ({} : Draft).endTag
    { tag := String.ofList t.name, attrs := t.entries 0 } t.selfClosing
  have alone : ({} : Draft).readFrom 0 t.source = some d := by
    have h := reads {} 0 [] rfl
    have hend : d.readFrom (0 + t.source.holes) [] = some d := by
      rw [Draft.readFrom_eq, ahead, runs, Draft.readRun_nil]
      rfl
    rwa [List.append_nil, hend] at h
  have finished : d.finish = [.element (String.ofList t.name) (t.entries 0) []] := by
    simp only [d, Draft.endTag]
    split <;> rfl
  rw [parse_of_readFrom alone, finished]

/-- A name that comes again, blanks of several kinds, all ways to write a value, and a slash that is
part of one. -/
theorem parse_startTag_forms :
    parse ["<p  a\t?b\u00a0= 'x'\nA a=\"y\" .c=/z/ @d=\"", "\" ...", " e = ", " />"] =
      .ok ⟨[.element "p" [("a", .literal "y"), ("?b", .literal "x"), ("A", .literal ""),
        (".c", .literal "/z/"), ("@d", .hole 0), ("...", .hole 1), ("e", .hole 2)] []], 3⟩ := by
  let t : StartTag :=
    { name := "p".toList
      attrs :=
        [("  ".toList, .bare "a".toList),
          ("\t".toList, .valued "?b".toList ['\u00a0'] [' '] (.quoted '\x27' "x".toList)),
          ("\n".toList, .bare "A".toList),
          (" ".toList, .valued "a".toList [] [] (.quoted '"' "y".toList)),
          (" ".toList, .valued ".c".toList [] [] (.unquoted "/z/".toList)),
          (" ".toList, .valued "@d".toList [] [] (.quotedHole '"')),
          (" ".toList, .spread []),
          (" ".toList, .valued "e".toList [' '] [' '] .hole)]
      blanks := " ".toList
      selfClosing := true }
  have proper : t.Proper := by decide +kernel
  have written : t.source.fragments =
      ["<p  a\t?b\u00a0= 'x'\nA a=\"y\" .c=/z/ @d=\"", "\" ...", " e = ", " />"] := by
    decide +kernel
  rw [← written, (parse_startTag proper).1]
  decide +kernel

end Skeleton

end LiveTemplate
