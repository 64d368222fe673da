import LiveTemplate.Proofs.Scenes

/-!
# What is left behind

After an unmount a container has its first children again, and behind them at most what
renders that failed have left there. A render that fails forgets some of the nodes that
it, or one before it, has put into the container; they stay, and no unmount removes them.
-/
namespace LiveTemplate
open Document Subtree Live Patched

/-- Where no renderer has anything mounted, the plots of a faithful container are empty. -/
theorem Plotted.forests_eq_nil {renderers : Nat → Renderer} {container : NodeId}
    {plots : List Plot} (p : Plotted True renderers container plots)
    (none : ∀ i, (renderers i).mounted? container = .none) : Plot.forests plots = [] := by
  refine List.flatMap_eq_nil_iff.2 fun x hx => p.vacant trivial x hx ?_
  cases ht : x.tenant with
  | none => rfl
  | some i =>
    obtain ⟨m, hm, -⟩ := p.occupied x hx i ht
    simp [none i] at hm

namespace Scene

/-- Where nothing is mounted and nothing was left, there are the first children only. -/
theorem Stands.unmounted {start : Document} {plots : NodeId → List Plot} {s : Scene} {q : NodeId}
    (st : s.Stands True start plots) (container : start.isContainer q = true)
    (none : ∀ j, (s.renderers j).mounted? q = .none) :
    Plot.forests (plots q) = [] ∧ s.host.document.children q = start.children q := by
  have empty := (st.plotted q container).forests_eq_nil none
  have hchildren := (st.block q container).children_eq
  rw [empty, roots_nil, List.append_nil, List.append_nil] at hchildren
  exact ⟨empty, hchildren⟩

/-- What stands in a container once a renderer has unmounted what it had there. -/
theorem Stands.unmount_children {faithful : Prop} {start : Document} {plots : NodeId → List Plot}
    {s : Scene} {i : Nat} {q : NodeId} (st : s.Stands faithful start plots)
    (container : start.isContainer q = true) :
    let next := (s.act (.unmount i q)).1
    (s.act (.unmount i q)).2 = none ∧ ∃ left,
      next.host.document.children q = start.children q ++ left ∧
      (∀ n : Nat, n ∈ left → start.nodes.size ≤ n) ∧
      (faithful → (∀ j, j ≠ i → (s.renderers j).mounted? q = none) → left = []) := by
  intro next
  have ends := @Stands.unmount faithful start plots s i q st container
  have succeeds : (s.act (.unmount i q)).2 = none := by
    by_contra hf
    exact ends.of_some hf
  obtain ⟨gone, plots', st'⟩ := ends.of_none succeeds
  refine ⟨succeeds, roots (Plot.forests (plots' q)), ?_,
    fun n hn => st'.young q container n (roots_subset _ hn), fun hf others => ?_⟩
  · have hchildren := (st'.block q container).children_eq
    rw [List.append_nil] at hchildren
    exact hchildren
  have empty := ((st'.plotted q container).mono fun _ => hf).forests_eq_nil fun j => by
    show (Function.update s.renderers i _ j).mounted? q = none
    by_cases hj : j = i
    · rw [hj, Function.update_self]
      exact gone
    · rw [Function.update_of_ne hj]
      exact others j hj
  rw [empty, roots_nil]

/-- After any moves, failed ones included, an unmount succeeds and leaves the container
with its first children and maybe new nodes behind them. There are none if no move has
failed and no other renderer has something mounted there. -/
theorem run_unmount_children {start : Scene} (new : start.New)
    (edited : Edited start.host.document) (moves : List Move)
    (on : ∀ m ∈ moves, m.On start.host.document) (i : Nat) (q : NodeId)
    (container : start.host.document.isContainer q = true) :
    let final := start.run moves
    let next := (final.act (.unmount i q)).1
    (final.act (.unmount i q)).2 = none ∧ ∃ left,
      next.host.document.children q = start.host.document.children q ++ left ∧
      (∀ n : Nat, n ∈ left → start.host.document.nodes.size ≤ n) ∧
      (start.Succeeds moves → (∀ j, j ≠ i → (final.renderers j).mounted? q = none) → left = []) := by
  intro final next
  by_cases succeeds : start.Succeeds moves
  · obtain ⟨plots, st⟩ := (new.stands edited).run_clean moves on succeeds
    obtain ⟨hnone, left, hchildren, young, empty⟩ := @Stands.unmount_children _ _ _ _ i q st container
    exact ⟨hnone, left, hchildren, young, fun _ => empty trivial⟩
  · obtain ⟨plots, st⟩ := (new.stands edited).run moves on
    obtain ⟨hnone, left, hchildren, young, -⟩ := @Stands.unmount_children _ _ _ _ i q st container
    exact ⟨hnone, left, hchildren, young, fun h => absurd h succeeds⟩

/-- A paragraph and a list in its place, and nothing is left. A render that fails at its second
element in place of the list leaves the first one, a new node. -/
theorem run_unmount_children_list :
    let half : SharedSkeleton := ⟨.parsed 2, ⟨[.element "p" [] [], .element "1b" [] []], 0⟩⟩
    let moves : List Move := [.render 0 body (.template 0 .paragraph [.text "a", .text "b"]),
      .render 0 body (.list 1 [.text "c", .null])]
    let failing := moves ++ [.render 0 body (.template 2 half [])]
    let unmounted (moves : List Move) := (({} : Scene).run moves).act (.unmount 0 body)
    (({} : Scene).run moves).host.document.innerMarkup body = "c<!---->" ∧
      (unmounted moves).1.host.document.children body = [] ∧
      ¬({} : Scene).Succeeds failing ∧ (unmounted failing).2 = none ∧
      (unmounted failing).1.host.document.innerMarkup body = "<p></p>" ∧
      ∀ n ∈ (unmounted failing).1.host.document.children body, 1 ≤ n := by
  intro half moves failing unmounted
  have made : half.Made := .inr ⟨["<p></p><1b></1b>"], by decide +kernel⟩
  have on : ∀ m ∈ failing, m.On ({} : Scene).host.document := by
    simp [failing, moves, Move.On, Value.Built, Value.BuiltAll, made]
    decide
  have succeeds : ({} : Scene).Succeeds moves := ⟨by decide +kernel, by decide +kernel, trivial⟩
  obtain ⟨-, left, hchildren, -, empty⟩ := run_unmount_children (fun _ _ => rfl) .empty moves
    (fun m hm => on m (List.mem_append_left _ hm)) 0 body (by decide)
  obtain ⟨hnone, left', hchildren', young, -⟩ :=
    run_unmount_children (fun _ _ => rfl) .empty failing on 0 body (by decide)
  refine ⟨by decide +kernel, ?_, ?_, hnone, by decide +kernel, ?_⟩
  · show ((({} : Scene).run moves).act (.unmount 0 body)).1.host.document.children body = []
    rw [hchildren, empty succeeds fun j hj => ?_]
    · rfl
    · rw [run_renderers_of_ne moves (by simpa [moves, Move.renderer] using Ne.symm hj)]
      rfl
  · rintro ⟨-, -, last, -⟩
    exact absurd last (by decide +kernel)
  · show ∀ n ∈ ((({} : Scene).run failing).act (.unmount 0 body)).1.host.document.children body, _
    rw [hchildren']
    exact young

/-- Renders that fail leave nodes. The first one fails at the second element of a skeleton
that is not mounted yet. The other one fails in the first of two keyed items, and forgets
both of them. -/
theorem failed_render_leaves_nodes :
    let half : SharedSkeleton := ⟨.parsed 2, ⟨[.element "p" [] [], .element "1b" [] []], 0⟩⟩
    let row : SharedSkeleton := ⟨.parsed 3, ⟨[.element "li" [("key", .hole 0)] [.hole 1]], 2⟩⟩
    let item (handle : Nat) (key : String) (v : Value) : Value := .template handle row [.text key, v]
    let second := item 1 "b" (.text "y")
    let shown : List Move := [.render 0 body (.list 2 [item 0 "a" (.text "x"), second])]
    let failed (moves : List Move) (v : Value) := (({} : Scene).run moves).act (.render 0 body v)
    let unmounted (s : Scene) : String := (s.act (.unmount 0 body)).1.host.document.innerMarkup body
    let once := failed [] (.template 0 half [])
    let later := failed shown (.list 3 [item 4 "a" (.template 5 .misnamed []), second])
    once.2 = some (.invalidTagName "1b") ∧ unmounted once.1 = "<p></p>" ∧
      later.2 = some (.invalidTagName "1b") ∧
      unmounted later.1 = "<!----><li><!----></li><!----><!----><li>y<!----></li><!---->" := by
  intro half row item second shown failed unmounted once later
  refine ⟨?_, ?_, ?_, ?_⟩
  · decide +kernel
  · decide +kernel
  · decide +kernel
  · decide +kernel

end Scene

end LiveTemplate
