import LiveTemplate.Live.Renderer
import LiveTemplate.Proofs.Holding

/-!
# Clearing contents

A content that fits can always be cleared. What a faithful one has put into the document
is all gone then; of any other one there may be nodes left that it does not know of.
-/
namespace LiveTemplate.Live
open Document Subtree

variable {ω : Watch} {faithful : Prop} {parent : NodeId} {before behind : List NodeId}

mutual
theorem clear_runs : {v : Value} → {c : Content} → {f : List Subtree} → Fits ω faithful v c f →
    ∀ {h : Host} {before behind : List NodeId}, Block h.document parent before f behind →
    ∀ {good : Unit → Host → Prop} {bad : Host → Prop},
    (∀ (h' : Host) f', Rewrites h.document h'.document parent before f f' behind →
      (faithful → f' = []) → good () h') →
    Runs (clear c) h good bad
  | _, _, _, .empty shows, h, _, _, b, _, _, next =>
      next h _ (.refl b) fun hf => (shows hf).1
  | _, _, _, .text left right shows, h, _, _, b, _, _, next => by
      obtain ⟨hok, w⟩ := Rewrites.remove b (.refl b)
      refine Runs.edit_ok hok (next _ _ w fun hf => ?_)
      rw [(shows hf).1, (shows hf).2.1, List.nil_append]
  | _, _, _, .nested left right _ _ shows, h, _, _, b, _, _, next => by
      rw [clear, Host.removeRange, Runs.bind, Runs.get]
      have hrange := b.range_eq
      simp only [root] at hrange
      rw [hrange]
      refine removeAll_runs left right b fun h' w => next h' _ w fun hf => ?_
      rw [(shows hf).1, (shows hf).2.1, List.nil_append]
  | _, .list _, _, .list fits _, _, _, _, b, _, _, next => clearItems_runs fits b next

theorem clearItems_runs : {items : List Item} → {f : List Subtree} →
    FitsItems ω faithful items f →
    ∀ {h : Host} {before behind : List NodeId}, Block h.document parent before f behind →
    ∀ {good : Unit → Host → Prop} {bad : Host → Prop},
    (∀ (h' : Host) f', Rewrites h.document h'.document parent before f f' behind →
      (faithful → f' = []) → good () h') →
    Runs (clearItems items) h good bad
  | _, _, .nil shows, h, _, _, b, _, _, next => next h _ (.refl b) shows
  | .mk _ _ :: _, _, .cons (f := f) (g := g) _ _ head tail, h, before, behind, b, _, _, next => by
      have b₁ : Block h.document parent before ([] ++ f ++ g) behind := b
      rw [clearItems, Runs.bind]
      refine clear_runs head b₁.part fun h₁ f₁ w₁ hf₁ => ?_
      have w₁ := w₁.part b₁
      have b₂ : Block h₁.document parent before (f₁ ++ g ++ []) behind := by
        simpa using w₁.block b₁
      refine clearItems_runs tail b₂.part fun h₂ f₂ w₂ hf₂ => ?_
      have w₂ := w₂.part b₂
      simp only [List.nil_append, List.append_nil] at w₁ w₂
      refine next h₂ _ (w₁.trans w₂) fun hf => ?_
      rw [hf₁ hf, hf₂ hf, List.nil_append]
end

/-! ### What has been cleared has no parent any more -/

theorem parent?_detach_self (id : NodeId) (d : Document) : (d.detach id).parent? id = none := by
  cases hp : d.parent? id with
  | none => rw [Document.detach, hp, hp]
  | some parent =>
    have hd : d.detach id = (d.setParent none id).updateChildren parent (·.filter (· ≠ id)) := by
      rw [Document.detach, hp]
    rw [hd]
    simp only [Document.updateChildren, Document.setParent, Document.parent?,
      Document.record?_update, if_pos]
    split <;> cases d.record? id <;> rfl

/-- After a step that succeeds these nodes have no parent, nor do those that had none. -/
def Loosens (m : HostM Unit) (h : Host) (ids : List NodeId) : Prop :=
  ∀ h', m h = .ok () h' → ∀ n, n ∈ ids ∨ h.document.parent? n = none → h'.document.parent? n = none

namespace Loosens
variable {m m' : HostM Unit} {h : Host} {ids ids' : List NodeId}

theorem pure : Loosens (pure ()) h [] := by
  rintro h' ⟨⟩ n (hn | hn)
  · simp at hn
  · exact hn

theorem andThen (first : Loosens m h ids) (next : ∀ h₁, m h = .ok () h₁ → Loosens m' h₁ ids') :
    Loosens (do m; m') h (ids ++ ids') := by
  intro h' heq n hn
  have heq : EStateM.bind m (fun _ => m') h = .ok () h' := heq
  unfold EStateM.bind at heq
  cases hm : m h with
  | error e h₁ => simp [hm] at heq
  | ok u h₁ =>
    rw [hm] at heq
    refine next h₁ hm h' heq n ?_
    rw [List.mem_append, or_assoc] at hn
    rcases hn with hn | hn | hn
    · exact .inr (first h₁ hm n (.inl hn))
    · exact .inl hn
    · exact .inr (first h₁ hm n (.inr hn))

theorem remove (id : NodeId) : Loosens (Host.remove id) h [id] := by
  intro h' heq n hn
  unfold Host.remove Host.edit Document.remove at heq
  split at heq
  next d hd =>
    split at hd
    · obtain rfl := Except.ok.inj hd
      obtain rfl : { h with document := h.document.detach id } = h' := by simpa using heq
      rcases hn with hn | hn
      · rw [List.mem_singleton.1 hn]
        exact parent?_detach_self id h.document
      · by_contra hne
        obtain ⟨q, hq⟩ := Option.ne_none_iff_exists'.1 hne
        simp [Document.parent?_detach hq] at hn
    · simp at hd
  next => simp at heq

theorem removeAll (ids : List NodeId) : Loosens (Host.removeAll ids) h ids := by
  induction ids generalizing h with
  | nil => exact pure
  | cons id rest ih => exact (remove id).andThen fun _ _ => ih

end Loosens

mutual
/-- Nothing gets a parent by being cleared. -/
theorem clear_loosens : (c : Content) → ∀ h, Loosens (clear c) h []
  | .empty, _ => .pure
  | .text _, _ => fun h' heq n hn => (Loosens.remove _) h' heq n (hn.imp (by simp) id)
  | .nested .., _ => fun h' heq n hn => (Loosens.removeAll _) h' heq n (hn.imp (by simp) id)
  | .list items, h => clearItems_loosens items h
termination_by structural c => c

theorem clearItems_loosens : (items : List Item) → ∀ h, Loosens (clearItems items) h []
  | [], _ => .pure
  | .mk _ c :: rest, h => (clear_loosens c h).andThen fun h₁ _ => clearItems_loosens rest h₁
termination_by structural items => items
end

mutual
theorem fits_loosens : {v : Value} → {c : Content} → {f : List Subtree} → Fits ω True v c f →
    ∀ {h : Host} {before behind : List NodeId}, Block h.document parent before f behind →
    Loosens (clear c) h (roots f)
  | _, _, _, .empty shows, _, _, _, _ => by
      obtain ⟨rfl, -⟩ := shows trivial
      exact .pure
  | _, _, _, .text left right shows, _, _, _, _ => by
      obtain ⟨rfl, rfl, -⟩ := shows trivial
      exact .remove _
  | _, _, _, .nested left right _ _ shows, h, _, _, b => by
      have hrange := b.range_eq
      simp only [root] at hrange
      obtain ⟨rfl, rfl, -⟩ := shows trivial
      intro h' heq n hn
      have heq : Host.removeAll (h.document.range _ _) h = .ok () h' := heq
      rw [hrange] at heq
      exact Loosens.removeAll _ h' heq n (by simpa using hn)
  | _, .list _, _, .list fits _, _, _, _, b => fitsItems_loosens fits b

/-- What a faithful content has put into the document has no parent when it is cleared. -/
theorem fitsItems_loosens : {items : List Item} → {f : List Subtree} →
    FitsItems ω True items f → ∀ {h : Host} {before behind : List NodeId},
    Block h.document parent before f behind → Loosens (clearItems items) h (roots f)
  | _, _, .nil shows, _, _, _, _ => by
      obtain rfl := shows trivial
      exact .pure
  | .mk _ c :: _, _, .cons (f := f) (g := g) _ _ head tail, h, before, behind, b => by
      have b₁ : Block h.document parent before ([] ++ f ++ g) behind := b
      have cleared : Runs (clear c) h (fun _ h₁ => Rewrites h.document h₁.document parent
          before f [] (roots g ++ behind)) (fun _ => False) :=
        clear_runs head b₁.part fun h₁ f' w hf => by
          obtain rfl := hf trivial
          simpa using w
      rw [roots_append]
      refine (fits_loosens head b₁.part).andThen fun h₁ heq => ?_
      have heq : clear c h = .ok () h₁ := heq
      rw [Runs, heq] at cleared
      have b₂ : Block h₁.document parent before ([] ++ g ++ []) behind := by
        have w : Rewrites h.document h₁.document parent (before ++ roots []) f [] (roots g ++ behind) := by
          simpa using cleared
        simpa using (w.part b₁).block b₁
      exact fitsItems_loosens tail b₂.part
end

end LiveTemplate.Live
