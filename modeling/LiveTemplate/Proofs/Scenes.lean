import LiveTemplate.Proofs.Plots
import LiveTemplate.Proofs.Viewing

/-!
# Scenes

In a scene any number of renderers render into the containers of one document, and unmount
what they have rendered, in any order. The containers are nodes that the document had at
the start. Whatever fails, each container has its first children and then its plots, and
no node belongs to the plots of two containers. So no edit is ever refused but for a name.
-/
namespace LiveTemplate
open Document Subtree Live Patched

/-- What one of the renderers is told to do. -/
inductive Move where
  | render (renderer : Nat) (container : NodeId) (v : Value)
  | unmount (renderer : Nat) (container : NodeId)

/-- The move is about a container of the document, and a value that can be made. -/
def Move.On (d : Document) : Move → Prop
  | .render _ container v => d.isContainer container = true ∧ v.Built
  | .unmount _ container => d.isContainer container = true

def Move.renderer : Move → Nat
  | .render i _ _ => i
  | .unmount i _ => i

/-- Renderers that share a host. -/
structure Scene where
  renderers : Nat → Renderer := fun _ => {}
  host : Host := {}

namespace Scene

def act (s : Scene) : Move → Scene × Option DocumentError
  | .render i container v =>
      let r := (s.renderers i).render v container s.host
      (⟨Function.update s.renderers i r.state, r.host⟩, r.failure)
  | .unmount i container =>
      let r := (s.renderers i).unmount container s.host
      (⟨Function.update s.renderers i r.state.1, r.host⟩, r.failure)

/-- The scene after some moves, those that failed included. -/
def run : List Move → Scene → Scene
  | [], s => s
  | m :: rest, s => run rest (s.act m).1

/-- No move fails. -/
def Succeeds : List Move → Scene → Prop
  | [], _ => True
  | m :: rest, s => (s.act m).2 = none ∧ Succeeds rest (s.act m).1

theorem run_append (first rest : List Move) (s : Scene) :
    s.run (first ++ rest) = (s.run first).run rest := by
  induction first generalizing s with
  | nil => rfl
  | cons m first ih => exact ih _

theorem succeeds_append {first rest : List Move} {s : Scene} :
    s.Succeeds (first ++ rest) ↔ s.Succeeds first ∧ (s.run first).Succeeds rest := by
  induction first generalizing s with
  | nil => exact (true_and _).symm.to_iff
  | cons m first ih => simp only [List.cons_append, Succeeds, run, ih, and_assoc]

/-- Nothing is mounted yet. -/
def New (s : Scene) : Prop := ∀ i container, (s.renderers i).mounted? container = none

/-- A renderer that is told nothing does nothing. -/
theorem run_renderers_of_ne {s : Scene} {j : Nat} (moves : List Move)
    (h : ∀ m ∈ moves, m.renderer ≠ j) : (s.run moves).renderers j = s.renderers j := by
  induction moves generalizing s with
  | nil => rfl
  | cons m rest ih =>
    rw [run, ih fun a ha => h a (List.mem_cons_of_mem _ ha)]
    have hj := Ne.symm (h m (List.mem_cons_self ..))
    cases m with
    | render i q v => exact Function.update_of_ne hj ..
    | unmount i q => exact Function.update_of_ne hj ..

/-- All containers of the document at the start have their first children and their plots,
apart from one another. What was no container is as it was. -/
structure Stands (faithful : Prop) (start : Document) (plots : NodeId → List Plot) (s : Scene) :
    Prop where
  size_le : start.nodes.size ≤ s.host.document.nodes.size
  others : ∀ n < start.nodes.size, start.isContainer n = false →
    s.host.document.record? n = start.record? n
  block : ∀ q, start.isContainer q = true →
    Block s.host.document q (start.children q) (Plot.forests (plots q)) []
  plotted : ∀ q, start.isContainer q = true → Plotted faithful s.renderers q (plots q)
  young : ∀ q, start.isContainer q = true →
    ∀ n ∈ idsAll (Plot.forests (plots q)), start.nodes.size ≤ n
  apart : ∀ q q', start.isContainer q = true → start.isContainer q' = true → q ≠ q' →
    ∀ n ∈ idsAll (Plot.forests (plots q)), n ∉ idsAll (Plot.forests (plots q'))

variable {faithful : Prop} {start : Document} {plots : NodeId → List Plot} {s : Scene} {i : Nat}
  {container : NodeId} {v : Value} {m : Move} {moves : List Move}

theorem New.stands_of_closed (new : s.New) (closed : Closed s.host.document) :
    s.Stands faithful s.host.document fun _ => [] where
  size_le := le_rfl
  others _ _ _ := rfl
  block _ hq := closed.block hq
  plotted q _ := {
    distinct := List.nodup_nil
    occupied := by simp
    housed := fun i m hm => by simp [new i q] at hm
    vacant := by simp }
  young := by simp
  apart := by simp

theorem New.stands (new : s.New) (edited : Edited s.host.document) :
    s.Stands faithful s.host.document fun _ => [] := new.stands_of_closed edited.closed

/-- What was there at the start is in no plot. -/
theorem Stands.notMem_plots (st : s.Stands faithful start plots)
    (hq : start.isContainer container = true) {n : Nat} (hn : n < start.nodes.size) :
    n ∉ idsAll (Plot.forests (plots container)) := fun hm =>
  absurd (st.young container hq n hm) (Nat.not_le.2 hn)

/-- One renderer changes the plots of one container, and all others stay. -/
theorem Stands.replot {faithful' : Prop} {r' : Renderer} {h' : Host}
    (st : s.Stands faithful start plots) (hf : faithful' → faithful)
    (hq : start.isContainer container = true)
    (replots : Replots faithful' s.renderers i container (start.children container)
      (plots container) s.host r' h') :
    ∃ plots', Stands faithful' start plots' ⟨Function.update s.renderers i r', h'⟩ := by
  obtain ⟨same, l, w, p⟩ := replots
  have b := st.block container hq
  -- what is new in the plots was no node before
  have fresh : ∀ q, start.isContainer q = true → q ≠ container →
      ∀ n ∈ idsAll (Plot.forests (plots q)), n ∉ idsAll (Plot.forests l) := by
    intro q hq' hne n hn hm
    rcases w.fresh n hm with h | h
    · exact st.apart q container hq' hq hne n hn h
    · exact absurd ((st.block q hq').holds.lt_size n hn) (Nat.not_lt.2 h)
  refine ⟨Function.update plots container l, Nat.le_trans st.size_le w.size_le, ?_, ?_, ?_, ?_, ?_⟩
  · intro n hn hnot
    have hne : n ≠ container := fun h => by simp [h, hq] at hnot
    rw [w.others n (Nat.lt_of_lt_of_le hn st.size_le) hne (st.notMem_plots hq hn)]
    exact st.others n hn hnot
  · intro q hq'
    by_cases hne : q = container
    · subst hne
      rw [Function.update_self]
      exact w.block b
    · rw [Function.update_of_ne hne]
      exact b.elsewhere w (st.block q hq') hne
        (st.notMem_plots hq (lt_size_of_isContainer hq'))
        (st.notMem_plots hq' (lt_size_of_isContainer hq)) (st.apart q container hq' hq hne)
  · intro q hq'
    by_cases hne : q = container
    · subst hne
      rwa [Function.update_self]
    · rw [Function.update_of_ne hne]
      refine ((st.plotted q hq').mono hf).congr fun j => ?_
      show (Function.update s.renderers i r' j).mounted? q = _
      by_cases hj : j = i
      · subst hj
        rw [Function.update_self]
        exact same q hne
      · rw [Function.update_of_ne hj]
  · intro q hq' n hn
    by_cases hne : q = container
    · subst hne
      rw [Function.update_self] at hn
      rcases w.fresh n hn with h | h
      · exact st.young q hq' n h
      · exact Nat.le_trans st.size_le h
    · rw [Function.update_of_ne hne] at hn
      exact st.young q hq' n hn
  · intro q q' hq₁ hq₂ hne n hn
    by_cases h₁ : q = container
    · subst h₁
      rw [Function.update_self] at hn
      rw [Function.update_of_ne (Ne.symm hne)]
      exact fun hm => fresh q' hq₂ (Ne.symm hne) n hm hn
    · rw [Function.update_of_ne h₁] at hn
      by_cases h₂ : q' = container
      · subst h₂
        rw [Function.update_self]
        exact fresh q hq₁ hne n hn
      · rw [Function.update_of_ne h₂]
        exact st.apart q q' hq₁ hq₂ hne n hn

/-! ### What a move preserves -/

/-- A render leaves the scene standing, and where it fails it does so for a name. -/
theorem Stands.render (st : s.Stands faithful start plots)
    (hq : start.isContainer container = true) (built : v.Built) :
    ((s.renderers i).render v container s.host).Ends
      (fun r' h' => ∃ plots', Stands faithful start plots' ⟨Function.update s.renderers i r', h'⟩)
      (fun r' h' => ∃ plots', Stands False start plots' ⟨Function.update s.renderers i r', h'⟩) :=
  (Renderer.render_replots built (st.plotted container hq) (st.block container hq)).mono
    (fun _ _ replots => st.replot id hq replots) fun _ _ replots => st.replot False.elim hq replots

theorem Stands.unmount (st : s.Stands faithful start plots)
    (hq : start.isContainer container = true) :
    ((s.renderers i).unmount container s.host).Ends
      (fun r' h' => r'.1.mounted? container = none ∧
        ∃ plots', Stands faithful start plots' ⟨Function.update s.renderers i r'.1, h'⟩)
      (fun _ _ => False) :=
  (Renderer.unmount_replots (st.plotted container hq) (st.block container hq)).mono
    (fun _ _ replots => ⟨replots.1, st.replot id hq replots.2⟩) fun _ _ hf => hf

theorem Stands.act (st : s.Stands False start plots) (on : m.On start) :
    ∃ plots', (s.act m).1.Stands False start plots' := by
  cases m with
  | render i q v =>
    have ends := @Stands.render False start plots s i q v st on.1 on.2
    by_cases hf : ((s.renderers i).render v q s.host).failure = none
    · exact ends.of_none hf
    · exact ends.of_some hf
  | unmount i q =>
    have ends := @Stands.unmount False start plots s i q st on
    by_cases hf : ((s.renderers i).unmount q s.host).failure = none
    · exact (ends.of_none hf).2
    · exact (ends.of_some hf).elim

/-! ### What a run preserves -/

theorem Stands.run (st : s.Stands False start plots) (moves : List Move)
    (on : ∀ m ∈ moves, m.On start) : ∃ plots', (s.run moves).Stands False start plots' := by
  induction moves generalizing s plots with
  | nil => exact ⟨plots, st⟩
  | cons m rest ih =>
    obtain ⟨plots', next⟩ := st.act (on m (List.mem_cons_self ..))
    exact ih next fun a ha => on a (List.mem_cons_of_mem _ ha)

/-- A run without failures leaves nothing that the renderers do not know of. -/
theorem Stands.run_clean (st : s.Stands True start plots) (moves : List Move)
    (on : ∀ m ∈ moves, m.On start) (succeeds : s.Succeeds moves) :
    ∃ plots', (s.run moves).Stands True start plots' := by
  induction moves generalizing s plots with
  | nil => exact ⟨plots, st⟩
  | cons m rest ih =>
    have next : ∃ plots', (s.act m).1.Stands True start plots' := by
      cases m with
      | render i q v =>
        have on := on _ (List.mem_cons_self ..)
        exact (@Stands.render True start plots s i q v st on.1 on.2).of_none succeeds.1
      | unmount i q =>
        have on := on _ (List.mem_cons_self ..)
        exact ((@Stands.unmount True start plots s i q st on).of_none succeeds.1).2
    obtain ⟨plots', next⟩ := next
    exact ih next (fun a ha => on a (List.mem_cons_of_mem _ ha)) succeeds.2

/-- After any moves, failed ones included, a render can fail for a name only, and an
unmount cannot fail. -/
theorem run_fails_for_names {start : Scene} (new : start.New) (edited : Edited start.host.document)
    (moves : List Move) (on : ∀ m ∈ moves, m.On start.host.document) (i : Nat) (q : NodeId)
    (container : start.host.document.isContainer q = true) :
    (∀ v : Value, v.Built → ∀ e, ((start.run moves).act (.render i q v)).2 = some e → e.IsNaming) ∧
      ((start.run moves).act (.unmount i q)).2 = none := by
  obtain ⟨plots, st⟩ := (new.stands edited).run moves on
  refine ⟨fun v built e he => (st.render container built).isNaming he, ?_⟩
  by_contra hf
  exact (st.unmount container).of_some hf

/-- Two renderers in one container, of which one has left half of a template there. -/
theorem run_fails_for_names_body :
    let half : SharedSkeleton := ⟨.parsed 2, ⟨[.element "p" [] [], .element "1b" [] []], 0⟩⟩
    let moves : List Move := [.render 0 body (.template 0 .paragraph [.text "a", .text "b"]),
      .render 1 body (.template 1 half []), .render 0 body (.list 2 [.null, .template 3 half []])]
    let s := ({} : Scene).run moves
    s.host.document.innerMarkup body = "<p></p><!---->" ∧
      (s.act (.render 1 body (.template 1 half []))).2 = some (.invalidTagName "1b") ∧
      (s.act (.unmount 0 body)).2 = none := by
  intro half moves s
  have made : half.Made := .inr ⟨["<p></p><1b></1b>"], by decide +kernel⟩
  have on : ∀ m ∈ moves, m.On ({} : Scene).host.document := by
    have container : ({} : Scene).host.document.isContainer body = true := by decide
    simp [moves, Move.On, container, Value.Built, Value.BuiltAll, made]
    decide
  have fails := run_fails_for_names (fun _ _ => rfl) .empty moves on 0 body (by decide)
  refine ⟨?_, ?_, fails.2⟩
  · decide +kernel
  · decide +kernel

end Scene

end LiveTemplate
