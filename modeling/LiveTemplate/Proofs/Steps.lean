import LiveTemplate.Live.Patch
import Mathlib.Tactic.Common

/-!
# What a step comes to

A step on the host either succeeds with a result or fails, and leaves a host behind in
both cases. `Runs` says what holds in either case; the rules take it apart along the
program. `Ends` says the same of a patch, which has a state in either case. A failure is
always that of a name: what else an edit may refuse never comes up.
-/
namespace LiveTemplate

/-- A name of a tag or of an attribute is not allowed. Every other error is one of a node
that is not where, or what, it should be. -/
def DocumentError.IsNaming : DocumentError → Prop
  | .invalidTagName _ => True
  | .invalidAttributeName _ => True
  | _ => False

section
variable {ε σ α β : Type} {m : EStateM ε σ α} {f : α → EStateM ε σ β} {s s' : σ}

theorem bind_ok {a : α} (h : m s = .ok a s') : (m >>= f) s = f a s' := by
  simp only [bind, EStateM.bind, h]

theorem bind_error {e : ε} (h : m s = .error e s') : (m >>= f) s = .error e s' := by
  simp only [bind, EStateM.bind, h]

end

namespace Live

variable {α β : Type}

/-- What holds of the result and the host when a step succeeds, and of the host when it
fails because of a name. -/
def Runs (m : HostM α) (h : Host) (good : α → Host → Prop) (bad : Host → Prop) : Prop :=
  match m h with
  | .ok a h => good a h
  | .error e h => e.IsNaming ∧ bad h

namespace Runs
variable {m : HostM α} {h : Host} {good : α → Host → Prop} {bad : Host → Prop}

theorem mono {good' : α → Host → Prop} {bad' : Host → Prop} (r : Runs m h good bad)
    (hgood : ∀ a h, good a h → good' a h) (hbad : ∀ h, bad h → bad' h) :
    Runs m h good' bad' := by
  unfold Runs at r ⊢
  split at r
  · exact hgood _ _ r
  · exact ⟨r.1, hbad _ r.2⟩

theorem bind {f : α → HostM β} {good : β → Host → Prop} :
    Runs (m >>= f) h good bad ↔ Runs m h (fun a h => Runs (f a) h good bad) bad := by
  unfold Runs
  show (match EStateM.bind m f h with | .ok a h => good a h | .error e h => e.IsNaming ∧ bad h) ↔ _
  unfold EStateM.bind
  cases m h <;> rfl

theorem pure {a : α} : Runs (pure a) h good bad ↔ good a h := Iff.rfl

theorem edit {f : Document → Except DocumentError Document} {good : Unit → Host → Prop} :
    Runs (Host.edit f) h good bad ↔
      match f h.document with
      | .ok document => good () { h with document }
      | .error e => e.IsNaming ∧ bad h := by
  unfold Runs Host.edit
  cases f h.document <;> rfl

/-- An edit that is known to succeed. -/
theorem edit_ok {f : Document → Except DocumentError Document} {d : Document}
    {good : Unit → Host → Prop} (hf : f h.document = .ok d)
    (hgood : good () { h with document := d }) : Runs (Host.edit f) h good bad := by
  rw [edit, hf]
  exact hgood

theorem create {kind : NodeKind} {good : NodeId → Host → Prop} :
    Runs (Host.create kind) h good bad ↔
      good h.document.nodes.size { h with document := (h.document.create kind).2 } := Iff.rfl

theorem createElement {tag : String} {good : NodeId → Host → Prop} :
    Runs (Host.createElement tag) h good bad ↔
      if isValidTag tag then
        good h.document.nodes.size
          { h with document := (h.document.create (.element { tag := Text.lower tag })).2 }
      else bad h := by
  unfold Runs Host.createElement Document.createElement
  cases isValidTag tag
  · exact ⟨And.right, And.intro trivial⟩
  · rfl

theorem get {good : Host → Host → Prop} : Runs get h good bad ↔ good h h := Iff.rfl

end Runs

namespace Patched

/-- What holds of the state and the host behind a patch, without a failure and with that
of a name. -/
def Ends (r : Patched α) (good bad : α → Host → Prop) : Prop :=
  match r.failure with
  | none => good r.state r.host
  | some e => e.IsNaming ∧ bad r.state r.host

variable {r : Patched α} {good bad : α → Host → Prop}

theorem Ends.mono {good' bad' : α → Host → Prop} (e : r.Ends good bad)
    (hgood : ∀ a h, good a h → good' a h) (hbad : ∀ a h, bad a h → bad' a h) :
    r.Ends good' bad' := by
  unfold Ends at e ⊢
  split at e
  · exact hgood _ _ e
  · exact ⟨e.1, hbad _ _ e.2⟩

theorem Ends.of_none (e : r.Ends good bad) (h : r.failure = none) : good r.state r.host := by
  rwa [Ends, h] at e

theorem Ends.of_some (e : r.Ends good bad) (h : r.failure ≠ none) : bad r.state r.host := by
  obtain ⟨err, herr⟩ := Option.ne_none_iff_exists'.1 h
  rw [Ends, herr] at e
  exact e.2

theorem Ends.isNaming (e : r.Ends good bad) {err : DocumentError} (h : r.failure = some err) :
    err.IsNaming := by
  rw [Ends, h] at e
  exact e.1

theorem ends_done {a : α} {h : Host} : Ends ⟨a, h, none⟩ good bad ↔ good a h := Iff.rfl

theorem ends_map {f : α → β} {good bad : β → Host → Prop} :
    (r.map f).Ends good bad ↔ r.Ends (fun a h => good (f a) h) fun a h => bad (f a) h := Iff.rfl

theorem ends_andThen {next : α → Host → Patched β} {kept : α → β} {good bad : β → Host → Prop} :
    (r.andThen next kept).Ends good bad ↔
      r.Ends (fun a h => (next a h).Ends good bad) fun a h => bad (kept a) h := by
  obtain ⟨state, host, failure⟩ := r
  cases failure <;> rfl

theorem ends_attempt {m : HostM α} {done : α → β} {kept : β} {h : Host}
    {good bad : β → Host → Prop} :
    (attempt m done kept h).Ends good bad ↔
      Runs m h (fun a h => good (done a) h) fun h => bad kept h := by
  unfold attempt Runs EStateM.run
  cases m h <;> rfl

theorem runs_toStep {patch : Host → Patched α} {h : Host} {good : α → Host → Prop}
    {bad : Host → Prop} :
    Runs (fun h => (patch h).toStep) h good bad ↔ (patch h).Ends good fun _ h => bad h := by
  unfold Runs Ends toStep
  dsimp only
  cases (patch h).failure <;> rfl

end Patched

end Live

end LiveTemplate
