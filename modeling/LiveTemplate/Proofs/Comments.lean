import LiveTemplate.Proofs.ErrorSpans
import LiveTemplate.Proofs.StartTags
import Mathlib.Logic.Relation

/-!
# Comments

What the reader does next depends on the fragment it is in, on its draft and on what is left
of the fragment. In a comment it passes over characters and holes alike, up to the first
closing sequence that stands within one fragment, and behind that it goes on with
the draft it had in front of the comment. A comment that is not closed takes the rest
of the source with it.
-/
namespace LiveTemplate
open Text

/-! ### The closing sequence -/

namespace Token

def commentEnd : List Char := ['-', '-', '>']

variable {c rest : List Char}

/-- Unless a run begins with the closing sequence, its first character is passed over. -/
theorem afterComment?_cons {x : Char} {cs : List Char}
    (h : ∀ tail, x :: cs ≠ '-' :: '-' :: '>' :: tail) : afterComment? (x :: cs) = afterComment? cs := by
  rw [afterComment?]
  rintro tail rfl rfl
  exact h tail rfl

/-- The sequence found is the first one, however a dash in front of it may overlap. -/
theorem afterComment?_append (h : ¬ commentEnd <:+: c) (rest : List Char) :
    afterComment? (c ++ (commentEnd ++ rest)) = some rest := by
  induction c with
  | nil => rfl
  | cons x c ih =>
    rw [List.cons_append, afterComment?_cons, ih fun hc => h (hc.trans (List.suffix_cons x c).isInfix)]
    intro tail htail
    -- an occurrence that begins here ends in the run, or ends with a dash
    rcases c with _ | ⟨y, _ | ⟨z, c⟩⟩
    · simp [commentEnd] at htail
    · simp [commentEnd] at htail
    · obtain ⟨rfl, rfl, rfl, -⟩ : x = '-' ∧ y = '-' ∧ z = '>' ∧ _ = tail := by simpa using htail
      exact h (List.IsPrefix.isInfix ⟨c, rfl⟩)

theorem afterComment?_eq_none (h : ¬ commentEnd <:+: c) : afterComment? c = none := by
  induction c with
  | nil => rfl
  | cons x c ih =>
    rw [afterComment?_cons, ih fun hc => h (hc.trans (List.suffix_cons x c).isInfix)]
    rintro tail htail
    exact h (List.IsPrefix.isInfix ⟨tail, htail.symm⟩)

end Token

/-! ### What the reader does next -/

/-- Elements are closed the same way in every mode. -/
theorem Draft.close_setMode (mode : Mode) (count : Nat) (d : Draft) :
    ({ d with mode := mode } : Draft).close count = { d.close count with mode := mode } := by
  induction count generalizing d with
  | zero => rfl
  | succ count ih =>
    have one : ({ d with mode := mode } : Draft).closeInnermost =
        { d.closeInnermost with mode := mode } := by
      obtain ⟨nodes, _ | ⟨e, _ | ⟨e', outer⟩⟩, m⟩ := d <;> rfl
    rw [close, one, ih, close]

/-- The end of the input finishes a comment like the content it stands among. -/
theorem Draft.finish_comment {d : Draft} (content : d.mode = .content) :
    ({ d with mode := .comment } : Draft).finish = d.finish := by
  simp [finish, content, close_setMode]

/-- The reader is in the fragment of that index, with so much of it left. -/
structure ReadState where
  index : Nat
  draft : Draft
  left : List Char

namespace Skeleton
variable {fragments : List String} {s s' : ReadState}

/-- The reader takes a token, or a hole at the end of a fragment with the quote behind it. -/
inductive Next (fragments : List String) : ReadState → ReadState → Prop
  | token {index : Nat} {d d' : Draft} {left rest : List Char} (more : left ≠ [])
      (read : d.step (decide (index + 1 < fragments.length)) left = some (d', rest)) :
      Next fragments ⟨index, d, left⟩ ⟨index, d', rest⟩
  | hole {index : Nat} {d d' : Draft} {quote : Option Char} {fragment : String} {run : List Char}
      (taken : d.takeHole index = some (d', quote)) (here : fragments[index + 1]? = some fragment)
      (behind : behindQuote (quote.map (index, ·)) fragment = .ok run) :
      Next fragments ⟨index, d, []⟩ ⟨index + 1, d', run⟩

abbrev Passes (fragments : List String) : ReadState → ReadState → Prop :=
  Relation.ReflTransGen (Next fragments)

/-- What comes of reading on. -/
def readOn (fragments : List String) (s : ReadState) : Except ParseError Draft :=
  match fragments.drop s.index with
  | [] => .ok s.draft
  | fragment :: rest => do
      let d ← (s.draft.readRun (!rest.isEmpty) s.left).mapError (stalledError s.index fragment)
      if rest.isEmpty then .ok d
      else
        match d.takeHole s.index with
        | none => .error (.unboundHole s.index fragment.utf8ByteSize)
        | some (d, quote) => readFragments (s.index + 1) (quote.map (s.index, ·)) d rest

theorem hasNext_eq {index : Nat} {fragment : String} {rest : List String}
    (h : fragments.drop index = fragment :: rest) :
    (!rest.isEmpty) = decide (index + 1 < fragments.length) := by
  have hlen := congrArg List.length h
  rw [List.length_drop, List.length_cons] at hlen
  cases rest with
  | nil =>
    rw [eq_comm, List.isEmpty_nil, Bool.not_true, decide_eq_false_iff_not]
    rw [List.length_nil] at hlen
    omega
  | cons g rest =>
    rw [eq_comm, List.isEmpty_cons, Bool.not_false, decide_eq_true_iff]
    rw [List.length_cons] at hlen
    omega

/-- Reading from the start of a fragment is reading on behind the quote that is awaited. -/
theorem readFragments_eq {index : Nat} {awaited : Option (Nat × Char)} {d : Draft}
    {fragment : String} {rest : List String} {run : List Char}
    (h : fragments.drop index = fragment :: rest) (behind : behindQuote awaited fragment = .ok run) :
    readFragments index awaited d (fragment :: rest) = readOn fragments ⟨index, d, run⟩ := by
  rw [readOn, h, readFragments, behind]
  rfl

theorem drop_eq_cons {index : Nat} {fragment : String} (here : fragments[index]? = some fragment) :
    fragments.drop index = fragment :: fragments.drop (index + 1) := by
  obtain ⟨hlt, rfl⟩ := List.getElem?_eq_some_iff.1 here
  exact List.drop_eq_getElem_cons hlt

/-- What comes of reading on is the same before and after a token or a hole. -/
theorem Next.readOn_eq (h : Next fragments s s') (inside : s.index < fragments.length) :
    readOn fragments s = readOn fragments s' ∧ s'.index < fragments.length := by
  obtain ⟨fragment, here⟩ : ∃ fragment, fragments[s.index]? = some fragment :=
    ⟨_, List.getElem?_eq_getElem inside⟩
  have hdrop := drop_eq_cons here
  cases h with
  | token more read =>
    refine ⟨?_, inside⟩
    simp only [readOn, hdrop]
    rw [hasNext_eq hdrop, Draft.readRun_step more read]
  | hole taken next behind =>
    have hdrop' := drop_eq_cons next
    refine ⟨?_, (List.getElem?_eq_some_iff.1 next).1⟩
    rw [← readFragments_eq hdrop' behind]
    simp only [readOn, hdrop, hdrop', Draft.readRun_nil, Except.mapError, bind, Except.bind,
      List.isEmpty_cons, Bool.false_eq_true, if_false, taken]

theorem Passes.readOn_eq (h : Passes fragments s s') (inside : s.index < fragments.length) :
    readOn fragments s = readOn fragments s' := by
  have key : readOn fragments s = readOn fragments s' ∧ s'.index < fragments.length := by
    induction h with
    | refl => exact ⟨rfl, inside⟩
    | tail _ step ih =>
      obtain ⟨same, bound⟩ := step.readOn_eq ih.2
      exact ⟨ih.1.trans same, bound⟩
  exact key.1

/-- The outcome of a parse is the one of reading on from any point that is reached. -/
theorem Reaches.parse_eq {index : Nat} {d : Draft} {left : List Char}
    (h : Reaches fragments index d left) : parse fragments =
      (readOn fragments ⟨index, d, left⟩).map fun d' => ⟨d'.finish, fragments.length - 1⟩ := by
  have key : readFragments 0 none {} fragments = readOn fragments ⟨index, d, left⟩ ∧
      index < fragments.length := by
    induction h with
    | start fragment here =>
      have hdrop := drop_eq_cons here
      have run := readFragments_eq (d := {}) hdrop (rfl : behindQuote none fragment = _)
      rw [← hdrop, List.drop_zero] at run
      exact ⟨run, (List.getElem?_eq_some_iff.1 here).1⟩
    | token index d d' cs rest before more read ih =>
      obtain ⟨same, bound⟩ := (Next.token more read).readOn_eq ih.2
      exact ⟨ih.1.trans same, bound⟩
    | hole index d d' fragment before taken here ih =>
      obtain ⟨same, bound⟩ := (Next.hole taken here rfl).readOn_eq ih.2
      exact ⟨ih.1.trans same, bound⟩
    | quotedHole index d d' quote fragment rest before taken here closed ih =>
      have behind : behindQuote (some (index, quote)) fragment = .ok rest := by
        simp [behindQuote, closed]
      obtain ⟨same, bound⟩ := (Next.hole taken here behind).readOn_eq ih.2
      exact ⟨ih.1.trans same, bound⟩
  rw [parse, key.1]
  cases readOn fragments ⟨index, d, left⟩ <;> rfl

end Skeleton

/-! ### Sources with holes -/

namespace Source

/-- Runs with a hole between any two. -/
def ofRuns : List Char → List (List Char) → Source
  | c, [] => ofChars c
  | c, c' :: cs => ofChars c ++ none :: ofRuns c' cs

@[simp] theorem holes_ofRuns (c : List Char) (cs : List (List Char)) :
    holes (ofRuns c cs) = cs.length := by
  induction cs generalizing c with
  | nil => simp [ofRuns]
  | cons c' cs ih => simp [ofRuns, ih]

@[simp] theorem ahead_ofChars (cs : List Char) (after : Source) :
    ahead (ofChars cs ++ after) = cs ++ after.ahead := by
  rw [ahead, runs_ofChars]

@[simp] theorem ahead_none (after : Source) : ahead (none :: after) = [] := rfl

theorem length_fragments (source : Source) : source.fragments.length = source.holes + 1 := by
  simp [fragments, length_runs]

/-- The fragment behind a hole. -/
theorem fragments_behind (before after : Source) :
    (before ++ none :: after).fragments[before.holes + 1]? = some (String.ofList after.ahead) := by
  have key : (runs (before ++ none :: after)).2[before.holes]? = some after.ahead := by
    induction before with
    | nil => rfl
    | cons x before ih => cases x <;> simpa [runs] using ih
  simp [fragments, key]

end Source

namespace Skeleton
open Source

variable {d : Draft} {c : List Char} {cs : List (List Char)}

/-- In a comment, a run without the closing sequence is passed over. -/
theorem passes_run (fragments : List String) (index : Nat) (d : Draft)
    (h : ¬ Token.commentEnd <:+: c) :
    Passes fragments ⟨index, { d with mode := .comment }, c⟩
      ⟨index, { d with mode := .comment }, []⟩ := by
  cases hc : c with
  | nil => exact .refl
  | cons x rest =>
    refine .single (.token (by simp) ?_)
    rw [← hc, Draft.step, Token.afterComment?_eq_none h]

/-- In a comment, holes between such runs are passed over as well, up to the last run. -/
theorem passes_runs (before after : Source) (d : Draft)
    (inside : ∀ run ∈ c :: cs, ¬ Token.commentEnd <:+: run) :
    Passes (before ++ (ofRuns c cs ++ after)).fragments
      ⟨before.holes, { d with mode := .comment }, (ofRuns c cs ++ after).ahead⟩
      ⟨before.holes + cs.length, { d with mode := .comment },
        (c :: cs).getLast (by simp) ++ after.ahead⟩ := by
  induction cs generalizing c before with
  | nil =>
    rw [ofRuns, ahead_ofChars]
    exact .refl
  | cons c' cs ih =>
    have source : before ++ (ofRuns c (c' :: cs) ++ after) =
        (before ++ ofChars c) ++ none :: (ofRuns c' cs ++ after) := by
      simp [ofRuns]
    have holes : (before ++ ofChars c).holes = before.holes := by simp
    have run : (ofRuns c (c' :: cs) ++ after).ahead = c := by simp [ofRuns]
    -- over the run, over the hole, and on in the next fragment
    have first := passes_run (before ++ (ofRuns c (c' :: cs) ++ after)).fragments before.holes d
      (inside c List.mem_cons_self)
    have here := fragments_behind (before ++ ofChars c) (ofRuns c' cs ++ after)
    rw [holes, ← source] at here
    have second : Next (before ++ (ofRuns c (c' :: cs) ++ after)).fragments
        ⟨before.holes, { d with mode := .comment }, []⟩
        ⟨before.holes + 1, { d with mode := .comment }, (ofRuns c' cs ++ after).ahead⟩ :=
      .hole (rfl : _ = some (_, none)) here (by simp [behindQuote])
    have third := ih (before ++ ofChars c ++ [none]) fun run hrun =>
      inside run (List.mem_cons_of_mem _ hrun)
    rw [List.append_assoc _ [none], List.singleton_append, ← source] at third
    simp only [holes_append, holes_ofChars, holes_cons_none, holes_nil] at third
    rw [run]
    refine (first.tail second).trans ?_
    simpa [Nat.add_comm, Nat.add_assoc, Nat.add_left_comm] using third

/-- The opening sequence leads into a comment. -/
theorem next_comment {fragments : List String} {index : Nat} (content : d.mode = .content)
    (left : List Char) : Next fragments ⟨index, d, '<' :: '!' :: '-' :: '-' :: left⟩
      ⟨index, { d with mode := .comment }, left⟩ := by
  have scan : Token.Content.scan ('<' :: '!' :: '-' :: '-' :: left) = (.commentStart, left) := rfl
  exact .token (by simp) (Draft.step_content content scan)

/-- Comments are passed over. At any point of a source where a tag could begin, a comment
with any number of holes leaves the reader behind its end with the draft it had in front
of it, and with as many more holes behind it. Without an end it leaves nothing to be read, and
what has been read by then is what is parsed. -/
theorem parse_comment (before after : Source) (d : Draft) (c : List Char) (cs : List (List Char))
    (content : d.mode = .content) (inside : ∀ run ∈ c :: cs, ¬ Token.commentEnd <:+: run) :
    (∀ rest, rest = ofChars "<!--".toList ++ (ofRuns c cs ++ (ofChars "-->".toList ++ after)) →
      Passes (before ++ rest).fragments ⟨before.holes, d, rest.ahead⟩
          ⟨before.holes + cs.length, d, after.ahead⟩ ∧
        readOn (before ++ rest).fragments ⟨before.holes, d, rest.ahead⟩ =
          readOn (before ++ rest).fragments ⟨before.holes + cs.length, d, after.ahead⟩ ∧
        (Reaches (before ++ rest).fragments before.holes d rest.ahead →
          parse (before ++ rest).fragments =
            (readOn (before ++ rest).fragments ⟨before.holes + cs.length, d, after.ahead⟩).map
              fun d' => ⟨d'.finish, (before ++ rest).holes⟩)) ∧
    (∀ rest, rest = ofChars "<!--".toList ++ ofRuns c cs →
      readOn (before ++ rest).fragments ⟨before.holes, d, rest.ahead⟩ =
          .ok { d with mode := .comment } ∧
        (Reaches (before ++ rest).fragments before.holes d rest.ahead →
          parse (before ++ rest).fragments = .ok ⟨d.finish, (before ++ rest).holes⟩)) := by
  have hlast : (c :: cs).getLast (by simp) ∈ c :: cs := List.getLast_mem _
  have bound : ∀ rest : Source, before.holes < (before ++ rest).fragments.length := by
    intro rest
    rw [length_fragments, holes_append]
    omega
  have length : ∀ rest : Source, (before ++ rest).fragments.length - 1 = (before ++ rest).holes := by
    intro rest
    rw [length_fragments, Nat.add_sub_cancel]
  -- into the comment and on to its last run
  have enter : ∀ more rest : Source, rest = ofChars "<!--".toList ++ (ofRuns c cs ++ more) →
      Passes (before ++ rest).fragments ⟨before.holes, d, rest.ahead⟩
        ⟨before.holes + cs.length, { d with mode := .comment },
          (c :: cs).getLast (by simp) ++ more.ahead⟩ := by
    rintro more rest rfl
    have runs := passes_runs (before ++ ofChars "<!--".toList) more d inside
    rw [holes_append, holes_ofChars, List.append_assoc] at runs
    refine .head ?_ runs
    rw [ahead_ofChars]
    exact next_comment content _
  constructor
  · intro rest hrest
    have passes : Passes (before ++ rest).fragments ⟨before.holes, d, rest.ahead⟩
        ⟨before.holes + cs.length, d, after.ahead⟩ := by
      have entered := enter _ rest hrest
      rw [show (ofChars "-->".toList ++ after).ahead = Token.commentEnd ++ after.ahead from
        ahead_ofChars _ _] at entered
      refine entered.tail (.token (by simp [Token.commentEnd]) ?_)
      rw [Draft.step, Token.afterComment?_append (inside _ hlast)]
      simp [← content]
    refine ⟨passes, passes.readOn_eq (bound rest), fun reached => ?_⟩
    rw [reached.parse_eq, passes.readOn_eq (bound rest), length]
  · intro rest hrest
    have passes : Passes (before ++ rest).fragments ⟨before.holes, d, rest.ahead⟩
        ⟨before.holes + cs.length, { d with mode := .comment }, []⟩ := by
      have entered := enter [] rest (by rw [hrest, List.append_nil])
      rw [show ahead [] = [] from rfl, List.append_nil] at entered
      exact entered.trans (passes_run _ _ d (inside _ hlast))
    have read : readOn (before ++ rest).fragments ⟨before.holes, d, rest.ahead⟩ =
        .ok { d with mode := .comment } := by
      rw [passes.readOn_eq (bound rest), readOn]
      -- this is the last fragment
      have total : (before ++ rest).fragments.length = before.holes + cs.length + 1 := by
        rw [length_fragments, holes_append]
        simp [hrest, Nat.add_assoc]
      obtain ⟨last, hdrop⟩ : ∃ last, (before ++ rest).fragments.drop (before.holes + cs.length) =
          [last] := List.length_eq_one_iff.1 (by rw [List.length_drop, total]; omega)
      simp [hdrop, Except.mapError, bind, Except.bind]
    refine ⟨read, fun reached => ?_⟩
    rw [reached.parse_eq, read, length]
    simp [Except.map, Draft.finish_comment content]

/-- Halves of a closing sequence at both sides of a hole, and a start tag that is none. -/
theorem parse_comment_halves :
    let fragments := ["<p><!-- <b a=\"-", "->", "--", "> \x27 -->y", "</p>"]
    let d : Draft := { opened := [{ tag := "p" }] }
    Reaches fragments 0 d "<!-- <b a=\"-".toList ∧
      Passes fragments ⟨0, d, "<!-- <b a=\"-".toList⟩ ⟨3, d, "y".toList⟩ ∧
      parse fragments = .ok ⟨[.element "p" [] [.text "y", .hole 3]], 4⟩ := by
  intro fragments d
  let before := ofChars "<p>".toList
  let after := ofChars "y".toList ++ none :: ofChars "</p>".toList
  let cs := ["->".toList, "--".toList, "> \x27 ".toList]
  let rest := ofChars "<!--".toList ++ (ofRuns " <b a=\"-".toList cs ++ (ofChars "-->".toList ++ after))
  have same : (before ++ rest).fragments = fragments := by decide +kernel
  have left : rest.ahead = "<!-- <b a=\"-".toList := by decide +kernel
  have reached : Reaches fragments 0 d "<!-- <b a=\"-".toList :=
    ((Reaches.start "<p><!-- <b a=\"-" rfl).token 0 {} { mode := .tag { tag := "p" } none } _
      "><!-- <b a=\"-".toList (by decide) (by decide +kernel)).token 0 _ d _ _ (by decide)
      (by decide +kernel)
  have closed : ∀ run ∈ " <b a=\"-".toList :: cs, ¬ Token.commentEnd <:+: run := by decide +kernel
  obtain ⟨passes, -, parsed⟩ := (parse_comment before after d _ cs rfl closed).1 rest rfl
  rw [same, left] at passes parsed
  rw [show before.holes + cs.length = 3 from rfl] at parsed
  refine ⟨reached, passes, ?_⟩
  rw [parsed reached]
  decide +kernel

end Skeleton

end LiveTemplate
