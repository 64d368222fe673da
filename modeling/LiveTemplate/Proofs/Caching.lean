import Mathlib.Data.List.Induction
import LiveTemplate.Proofs.Making

/-!
# Templates through the cache

Requests are answered one after the other, each by the workshop that the one before left.
Whoever asks for templates cannot tell that skeletons are remembered: every answer is what
parsing the fragments anew and counting the values would have given. What can be told is
which templates have one skeleton between them, and those are the ones of a site from one
clearing to the next.
-/
namespace LiveTemplate

inductive Request where
  | invoke (site : CallSite) (values : List Value)
  | clear
deriving DecidableEq, Repr

/-- Clearing has no answer but that it is done. -/
abbrev Answer := Option (Except TemplateError Value)

/-- What makes up a template, apart from the numbers it is told apart by. -/
structure TemplateParts where
  skeleton : Skeleton
  values : List Value
  key : Option Value
deriving DecidableEq, Repr

def Value.templateParts? : Value → Option TemplateParts
  | .template handle shared values =>
      some ⟨shared.skeleton, values, (Value.template handle shared values).key?⟩
  | _ => none

/-- What a site gives when its fragments are parsed for this template alone. -/
def CallSite.parseAnew (site : CallSite) (values : List Value) :
    Except TemplateError TemplateParts :=
  match Skeleton.parse site.fragments with
  | .error e => .error (.malformed e)
  | .ok skeleton =>
      if values.length = skeleton.holes then
        .ok ⟨skeleton, values, Value.keyOf? ⟨.bare, skeleton⟩ values⟩
      else .error (.wrongArity skeleton.holes values.length)

def Answer.skeleton? : Answer → Option SharedSkeleton
  | some (.ok (.template _ shared _)) => some shared
  | _ => none

/-- The answer is the one to be had without a cache. -/
def Request.Answered : Request → Answer → Prop
  | .invoke site values, some (.error e) => site.parseAnew values = .error e
  | .invoke site values, some (.ok v) =>
      ∃ parts, v.templateParts? = some parts ∧ site.parseAnew values = .ok parts
  | .clear, none => True
  | _, _ => False

/-- The site was invoked, and nothing was cleared afterwards. -/
def Request.UsedSinceClear (site : CallSite) (requests : List Request) : Prop :=
  ∃ before values after, requests = before ++ .invoke site values :: after ∧ .clear ∉ after

/-- The two requests are invocations of one site, with no clearing between them. -/
def Request.SameUse (requests : List Request) (i j : Nat) : Prop :=
  ∃ site values values', requests[i]? = some (.invoke site values) ∧
    requests[j]? = some (.invoke site values') ∧
    ∀ k, i < k → k < j → requests[k]? ≠ some .clear

namespace Workshop

def answer : Request → Workshop → Answer × Workshop
  | .invoke site values, w => ((w.invoke site values).map some id)
  | .clear, w => (none, { w with cache := w.cache.clear })

/-- The answers in order, and the workshop behind the last of them. -/
def serve : List Request → Workshop → List Answer × Workshop
  | [], w => ([], w)
  | r :: rest, w =>
      let (a, w) := w.answer r
      (serve rest w).map (a :: ·) id

end Workshop

namespace Cache

/-- The entries of a cache: one for each site, with what was parsed from its fragments, under
a number that no other entry has and no later one will have. -/
structure Sound (c : Cache) : Prop where
  sites : (Entries.names c.skeletons).Nodup
  parsed : ∀ e ∈ c.skeletons, Skeleton.parse e.1.fragments = .ok e.2.skeleton
  numbered : ∀ e ∈ c.skeletons, ∃ n < c.nextNumber, e.2.id = .parsed n
  apart : ∀ e ∈ c.skeletons, ∀ e' ∈ c.skeletons, e.2.id = e'.2.id → e = e'

/-- No entry is older than that number. -/
def Since (floor : Nat) (c : Cache) : Prop :=
  floor ≤ c.nextNumber ∧ ∀ e ∈ c.skeletons, ∃ n, floor ≤ n ∧ e.2.id = .parsed n

variable {c : Cache} {site : CallSite}

/-- A site is found, or fails to parse, or is entered under the next number. -/
theorem obtain_cases (site : CallSite) (c : Cache) :
    (∃ shared, c.get? site = some shared ∧ c.obtain site = (.ok shared, c)) ∨
      (c.get? site = none ∧ ∃ e, Skeleton.parse site.fragments = .error e ∧
        c.obtain site = (.error e, c)) ∨
      (c.get? site = none ∧ ∃ skeleton, Skeleton.parse site.fragments = .ok skeleton ∧
        c.obtain site = (.ok ⟨.parsed c.nextNumber, skeleton⟩,
          ⟨(site, ⟨.parsed c.nextNumber, skeleton⟩) :: c.skeletons, c.nextNumber + 1⟩)) := by
  unfold obtain
  cases hg : c.get? site with
  | some shared => exact .inl ⟨shared, rfl, rfl⟩
  | none =>
    cases hp : Skeleton.parse site.fragments with
    | error e => exact .inr (.inl ⟨rfl, e, rfl, rfl⟩)
    | ok skeleton => exact .inr (.inr ⟨rfl, skeleton, rfl, rfl⟩)

theorem sound_empty (number : Nat) : Sound ⟨[], number⟩ :=
  ⟨List.nodup_nil, by simp, by simp, by simp⟩

theorem Sound.get?_parsed {shared : SharedSkeleton} (h : c.Sound) (hg : c.get? site = some shared) :
    Skeleton.parse site.fragments = .ok shared.skeleton := h.parsed _ (Entries.mem_of_get? hg)

/-- Two sites of one number are one site. -/
theorem Sound.site_eq {site' : CallSite} {s s' : SharedSkeleton} (h : c.Sound)
    (hs : c.get? site = some s) (hs' : c.get? site' = some s') (hid : s.id = s'.id) :
    site = site' ∧ s = s' :=
  Prod.ext_iff.1 (h.apart _ (Entries.mem_of_get? hs) _ (Entries.mem_of_get? hs') hid)

theorem Sound.obtain (h : c.Sound) (site : CallSite) : (c.obtain site).2.Sound := by
  rcases obtain_cases site c with ⟨s, -, ho⟩ | ⟨-, e, -, ho⟩ | ⟨hg, skeleton, hp, ho⟩
  · rwa [ho]
  · rwa [ho]
  · rw [ho]
    -- the next number is above all those in use
    have fresh : ∀ e ∈ c.skeletons, e.2.id ≠ .parsed c.nextNumber := by
      intro e he
      obtain ⟨n, hn, hid⟩ := h.numbered e he
      rw [hid]
      rintro ⟨⟩
      exact Nat.lt_irrefl _ hn
    refine ⟨?_, ?_, ?_, ?_⟩
    · exact List.nodup_cons.2 ⟨Entries.get?_eq_none_iff.1 hg, h.sites⟩
    · rintro e (_ | ⟨_, he⟩)
      · exact hp
      · exact h.parsed e he
    · rintro e (_ | ⟨_, he⟩)
      · exact ⟨_, Nat.lt_succ_self _, rfl⟩
      · obtain ⟨n, hn, hid⟩ := h.numbered e he
        exact ⟨n, Nat.lt_succ_of_lt hn, hid⟩
    · rintro e (_ | ⟨_, he⟩) e' (_ | ⟨_, he'⟩) hid
      · rfl
      · exact absurd hid.symm (fresh e' he')
      · exact absurd hid (fresh e he)
      · exact h.apart e he e' he' hid

theorem Since.obtain {floor : Nat} (h : c.Since floor) (site : CallSite) :
    (c.obtain site).2.Since floor := by
  rcases obtain_cases site c with ⟨s, -, ho⟩ | ⟨-, e, -, ho⟩ | ⟨-, skeleton, -, ho⟩
  · rwa [ho]
  · rwa [ho]
  · rw [ho]
    refine ⟨Nat.le_succ_of_le h.1, ?_⟩
    rintro e (_ | ⟨_, he⟩)
    · exact ⟨_, h.1, rfl⟩
    · exact h.2 e he

theorem le_obtain (site : CallSite) : c.nextNumber ≤ (c.obtain site).2.nextNumber := by
  rcases obtain_cases site c with ⟨s, -, ho⟩ | ⟨-, e, -, ho⟩ | ⟨-, skeleton, -, ho⟩ <;> simp [ho]

/-- Whatever is found stays to be found. -/
theorem get?_obtain {other : CallSite} {s : SharedSkeleton} (hs : c.get? other = some s)
    (site : CallSite) : (c.obtain site).2.get? other = some s := by
  rcases obtain_cases site c with ⟨_, -, ho⟩ | ⟨-, e, -, ho⟩ | ⟨hg, skeleton, -, ho⟩
  · rwa [ho]
  · rwa [ho]
  · rw [ho]
    have hne : site ≠ other := by
      rintro rfl
      rw [hg] at hs
      cases hs
    simpa [get?, Entries.get?, hne] using hs

/-- What was obtained is what the site is remembered by. -/
theorem get?_obtained {s : SharedSkeleton} (h : (c.obtain site).1 = .ok s) :
    (c.obtain site).2.get? site = some s := by
  rcases obtain_cases site c with ⟨s', hg, ho⟩ | ⟨-, e, -, ho⟩ | ⟨hg, skeleton, -, ho⟩
  · rw [ho] at h ⊢
    cases h
    exact hg
  · rw [ho] at h
    cases h
  · rw [ho] at h ⊢
    cases h
    simp [get?, Entries.get?]

/-- The sites remembered afterwards: those from before, and this one if it parses. -/
theorem mem_obtain {other : CallSite} :
    other ∈ Entries.names (c.obtain site).2.skeletons ↔
      other ∈ Entries.names c.skeletons ∨
        other = site ∧ ∃ skeleton, Skeleton.parse site.fragments = .ok skeleton := by
  rcases obtain_cases site c with ⟨s, hg, ho⟩ | ⟨-, e, hp, ho⟩ | ⟨-, skeleton, hp, ho⟩
  · rw [ho]
    refine ⟨.inl, ?_⟩
    rintro (hm | ⟨rfl, -⟩)
    · exact hm
    · exact List.mem_map_of_mem (f := Prod.fst) (Entries.mem_of_get? hg)
  · simp [ho, hp]
  · simp [ho, hp, Entries.names, or_comm]

/-- What obtaining gives, without the cache. -/
theorem Sound.obtain_eq (h : c.Sound) (site : CallSite) :
    (c.obtain site).1.map SharedSkeleton.skeleton = Skeleton.parse site.fragments := by
  rcases obtain_cases site c with ⟨s, hg, ho⟩ | ⟨-, e, hp, ho⟩ | ⟨-, skeleton, hp, ho⟩
  · rw [ho, h.get?_parsed hg]
    rfl
  · rw [ho, hp]
    rfl
  · rw [ho, hp]
    rfl

end Cache

namespace Workshop
variable {w : Workshop} {site site' : CallSite} {values values' : List Value}

/-- Only the parsing of the fragments reaches the cache; the values do not matter. -/
theorem invoke_cache (w : Workshop) (site : CallSite) (values : List Value) :
    (w.invoke site values).2.cache = (w.cache.obtain site).2 := by
  unfold invoke
  rcases ho : w.cache.obtain site with ⟨_ | shared, cache⟩
  · rfl
  · simp only [template]
    split <;> rfl

theorem invoke_eq_ok {v : Value} (h : (w.invoke site values).1 = .ok v) :
    ∃ handle shared, v = .template handle shared values ∧ values.length = shared.holes ∧
      (w.cache.obtain site).1 = .ok shared := by
  unfold invoke at h
  rcases ho : w.cache.obtain site with ⟨_ | shared, cache⟩
  · simp [ho] at h
  · simp only [ho, template] at h
    split at h
    · next hlen => exact ⟨_, shared, by simpa [make, eq_comm] using h, hlen, rfl⟩
    · simp at h

/-- An invocation with a sound cache answers as if there were none. -/
theorem invoke_answered (h : w.cache.Sound) (site : CallSite) (values : List Value) :
    (Request.invoke site values).Answered (some (w.invoke site values).1) := by
  have ho := h.obtain_eq site
  unfold invoke
  rcases ho' : w.cache.obtain site with ⟨e | shared, cache⟩
  · simp only [ho'] at ho
    simp only [Request.Answered, CallSite.parseAnew, ← ho, Except.map]
  · simp only [ho'] at ho
    have holes : shared.holes = shared.skeleton.holes := rfl
    simp only [template]
    split
    next hlen =>
      refine ⟨_, rfl, ?_⟩
      simp only [CallSite.parseAnew, ← ho, Except.map]
      rw [if_pos (holes ▸ hlen)]
      rfl
    next hlen =>
      simp only [Request.Answered, CallSite.parseAnew, ← ho, Except.map]
      rw [if_neg (holes ▸ hlen), holes]

theorem answer_invoke_cache (w : Workshop) (site : CallSite) (values : List Value) :
    (w.answer (.invoke site values)).2.cache = (w.cache.obtain site).2 := invoke_cache w site values

theorem answer_sound (h : w.cache.Sound) (r : Request) : (w.answer r).2.cache.Sound := by
  cases r with
  | invoke site values =>
    rw [answer_invoke_cache]
    exact h.obtain site
  | clear => exact Cache.sound_empty _

theorem le_answer (w : Workshop) (r : Request) :
    w.cache.nextNumber ≤ (w.answer r).2.cache.nextNumber := by
  cases r with
  | invoke site values =>
    rw [answer_invoke_cache]
    exact Cache.le_obtain site
  | clear => exact Nat.le_refl _

theorem answer_since {floor : Nat} (h : w.cache.Since floor) (r : Request) :
    (w.answer r).2.cache.Since floor := by
  cases r with
  | invoke site values =>
    rw [answer_invoke_cache]
    exact h.obtain site
  | clear => exact ⟨h.1, by simp [answer, Cache.clear]⟩

theorem serve_append (before after : List Request) (w : Workshop) :
    serve (before ++ after) w =
      ((serve before w).1 ++ (serve after (serve before w).2).1,
        (serve after (serve before w).2).2) := by
  induction before generalizing w with
  | nil => rfl
  | cons r rest ih => simp [serve, ih]

/-- What is asked later changes no answer. -/
theorem serve_take (requests : List Request) (n : Nat) (w : Workshop) :
    (serve (requests.take n) w).1 = (serve requests w).1.take n := by
  induction requests generalizing w n with
  | nil => simp [serve]
  | cons r rest ih =>
    cases n with
    | zero => simp [serve]
    | succ n => simp [serve, ih]

/-- The workshop that a run finds is sound, and so is the one it leaves. -/
theorem serve_sound (h : w.cache.Sound) (requests : List Request) :
    (serve requests w).2.cache.Sound := by
  induction requests generalizing w with
  | nil => exact h
  | cons r rest ih => exact ih (answer_sound h r)

theorem le_serve (requests : List Request) (w : Workshop) :
    w.cache.nextNumber ≤ (serve requests w).2.cache.nextNumber := by
  induction requests generalizing w with
  | nil => exact Nat.le_refl _
  | cons r rest ih => exact Nat.le_trans (le_answer w r) (ih (w.answer r).2)

theorem serve_since {floor : Nat} (h : w.cache.Since floor) (requests : List Request) :
    (serve requests w).2.cache.Since floor := by
  induction requests generalizing w with
  | nil => exact h
  | cons r rest ih => exact ih (answer_since h r)

/-- Without a clearing, a site keeps its skeleton through any run. -/
theorem serve_get? {s : SharedSkeleton} (h : w.cache.get? site = some s)
    (requests : List Request) (hclear : .clear ∉ requests) :
    (serve requests w).2.cache.get? site = some s := by
  induction requests generalizing w with
  | nil => exact h
  | cons r rest ih =>
    obtain ⟨hr, hrest⟩ := not_or.1 (mt List.mem_cons.2 hclear)
    refine ih (?_ : (w.answer r).2.cache.get? site = some s) hrest
    cases r with
    | invoke site' values =>
      rw [answer_invoke_cache]
      exact Cache.get?_obtain h site'
    | clear => exact absurd rfl hr

theorem serve_answered (h : w.cache.Sound) (requests : List Request) :
    List.Forall₂ Request.Answered requests (serve requests w).1 := by
  induction requests generalizing w with
  | nil => exact .nil
  | cons r rest ih =>
    refine .cons ?_ (ih (answer_sound h r))
    cases r with
    | invoke site values => exact invoke_answered h site values
    | clear => trivial

end Workshop

namespace Request
variable {site : CallSite} {requests : List Request}

@[simp] theorem not_usedSinceClear_nil : ¬ UsedSinceClear site [] := by
  rintro ⟨before, values, after, h, -⟩
  simp at h

@[simp] theorem usedSinceClear_concat_invoke {site' : CallSite} {values : List Value} :
    UsedSinceClear site (requests ++ [.invoke site' values]) ↔
      UsedSinceClear site requests ∨ site = site' := by
  constructor
  · rintro ⟨before, values', after, h, hafter⟩
    rcases List.eq_nil_or_concat after with rfl | ⟨after, r, rfl⟩
    · obtain ⟨-, h⟩ := List.append_inj' h rfl
      obtain ⟨rfl, -⟩ : site' = site ∧ values = values' := by simpa using h
      exact .inr rfl
    · refine .inl ⟨before, values', after, ?_, fun hm => hafter (by simp [hm])⟩
      rw [List.concat_eq_append, ← List.cons_append, ← List.append_assoc] at h
      exact (List.append_inj' h rfl).1
  · rintro (⟨before, values', after, rfl, hafter⟩ | rfl)
    · exact ⟨before, values', after ++ [.invoke site' values], by simp, by simp [hafter]⟩
    · exact ⟨requests, values, [], rfl, by simp⟩

@[simp] theorem not_usedSinceClear_concat_clear : ¬ UsedSinceClear site (requests ++ [.clear]) := by
  rintro ⟨before, values, after, h, hafter⟩
  rcases List.eq_nil_or_concat after with rfl | ⟨after, r, rfl⟩
  · obtain ⟨-, h⟩ := List.append_inj' h rfl
    simp at h
  · rw [List.concat_eq_append, ← List.cons_append, ← List.append_assoc] at h
    obtain ⟨-, h⟩ := List.append_inj' h rfl
    obtain rfl : Request.clear = r := by simpa using h
    exact hafter (by simp)

end Request

namespace Workshop
variable {w : Workshop} {site site' : CallSite} {values values' : List Value}

/-- The sites remembered behind a run are those used since the last clearing, if they parse. -/
theorem mem_serve (requests : List Request) (site : CallSite) :
    site ∈ Entries.names (serve requests {}).2.cache.skeletons ↔
      Request.UsedSinceClear site requests ∧
        ∃ skeleton, Skeleton.parse site.fragments = .ok skeleton := by
  induction requests using List.reverseRecOn with
  | nil => simp [serve, Entries.names]
  | append_singleton requests r ih =>
    rw [serve_append]
    cases r with
    | invoke site' values =>
      simp only [serve, Prod.map_snd, id, answer_invoke_cache, Cache.mem_obtain, ih,
        Request.usedSinceClear_concat_invoke]
      constructor
      · rintro (⟨hu, hp⟩ | ⟨rfl, hp⟩)
        · exact ⟨.inl hu, hp⟩
        · exact ⟨.inr rfl, hp⟩
      · rintro ⟨hu | rfl, hp⟩
        · exact .inl ⟨hu, hp⟩
        · exact .inr ⟨rfl, hp⟩
    | clear => simp [serve, answer, Cache.clear, Entries.names]

/-- What a site is remembered by at one time and another site, or the same, at a later time
has one number only if the sites are one and no clearing came between. -/
theorem remembered_iff {s s' : SharedSkeleton} (sound : w.cache.Sound)
    (hs : w.cache.get? site = some s) (between : List Request)
    (hs' : (serve between w).2.cache.get? site' = some s') :
    (s.id = s'.id ↔ site = site' ∧ .clear ∉ between) ∧ (s.id = s'.id → s = s') := by
  by_cases hclear : .clear ∈ between
  · -- what is entered behind the clearing has a number from behind it
    obtain ⟨before, after, rfl⟩ := List.append_of_mem hclear
    obtain ⟨n, hn, hid⟩ := sound.numbered _ (Entries.mem_of_get? hs)
    have cleared : (answer .clear (serve before w).2).2.cache.Since
        (serve before w).2.cache.nextNumber :=
      ⟨Nat.le_refl _, by simp [answer, Cache.clear]⟩
    rw [serve_append] at hs'
    obtain ⟨m, hm, hid'⟩ := (serve_since cleared after).2 _ (Entries.mem_of_get? hs')
    have older : n < m := Nat.lt_of_lt_of_le hn (Nat.le_trans (le_serve before _) hm)
    have hne : s.id ≠ s'.id := by
      rw [hid, hid']
      rintro ⟨⟩
      exact Nat.lt_irrefl _ older
    simp [hne]
  · have kept := serve_get? hs between hclear
    have sound' := serve_sound sound between
    refine ⟨⟨fun hid => ⟨(sound'.site_eq kept hs' hid).1, hclear⟩, ?_⟩,
      fun hid => (sound'.site_eq kept hs' hid).2⟩
    rintro ⟨rfl, -⟩
    rw [kept] at hs'
    cases hs'
    rfl

/-- The request behind an answer that holds a template, and what is remembered right after. -/
theorem remembered_of_answer {requests : List Request} {i : Nat} {s : SharedSkeleton}
    (h : (serve requests w).1[i]?.bind Answer.skeleton? = some s) :
    ∃ site values, requests[i]? = some (.invoke site values) ∧
      (serve (requests.take (i + 1)) w).2.cache.get? site = some s := by
  induction requests generalizing w i with
  | nil => simp [serve] at h
  | cons r rest ih =>
    cases i with
    | succ i =>
      obtain ⟨site, values, hr, hs⟩ := ih (w := (w.answer r).2) (i := i) (by simpa [serve] using h)
      exact ⟨site, values, by simpa using hr, by simpa [serve] using hs⟩
    | zero =>
      cases r with
      | clear => simp [serve, answer, Answer.skeleton?] at h
      | invoke site values =>
        refine ⟨site, values, rfl, ?_⟩
        have h : Answer.skeleton? (some (w.invoke site values).1) = some s := by
          simpa [serve, answer] using h
        rcases ha : (w.invoke site values).1 with e | v
        · simp [ha, Answer.skeleton?] at h
        · obtain ⟨handle, shared, rfl, -, ho⟩ := invoke_eq_ok ha
          obtain rfl : shared = s := by simpa [ha, Answer.skeleton?] using h
          simpa [serve, answer_invoke_cache] using Cache.get?_obtained ho

theorem clear_mem_between {requests : List Request} {i j : Nat} :
    .clear ∈ (requests.take (j + 1)).drop (i + 1) ↔
      ∃ k, i < k ∧ k < j + 1 ∧ requests[k]? = some .clear := by
  rw [List.mem_iff_getElem?]
  constructor
  · rintro ⟨k, hk⟩
    rw [List.getElem?_drop, List.getElem?_take] at hk
    split at hk
    · exact ⟨i + 1 + k, by omega, by omega, hk⟩
    · cases hk
  · rintro ⟨k, hik, hkj, hk⟩
    refine ⟨k - (i + 1), ?_⟩
    rw [List.getElem?_drop, List.getElem?_take, show i + 1 + (k - (i + 1)) = k by omega, if_pos hkj,
      hk]

theorem serve_take_take {requests : List Request} {i j : Nat} (h : i ≤ j) (w : Workshop) :
    (serve (requests.take j) w).2 =
      (serve ((requests.take j).drop i) (serve (requests.take i) w).2).2 := by
  conv_lhs => rw [← List.take_append_drop i (requests.take j), serve_append, List.take_take,
    Nat.min_eq_left h]

/-- Two templates of a run have one skeleton exactly when they are of one site and no
clearing came between them. -/
theorem shared_iff {requests : List Request} {i j : Nat} {s s' : SharedSkeleton} (hij : i < j)
    (hs : (serve requests {}).1[i]?.bind Answer.skeleton? = some s)
    (hs' : (serve requests {}).1[j]?.bind Answer.skeleton? = some s') :
    (s.id = s'.id ↔ Request.SameUse requests i j) ∧ (s.id = s'.id → s = s') := by
  obtain ⟨site, values, hi, hg⟩ := remembered_of_answer hs
  obtain ⟨site', values', hj, hg'⟩ := remembered_of_answer hs'
  rw [serve_take_take (by omega : i + 1 ≤ j + 1)] at hg'
  have sound : (serve (requests.take (i + 1)) {}).2.cache.Sound :=
    serve_sound (Cache.sound_empty 0) _
  obtain ⟨hiff, heq⟩ := remembered_iff sound hg _ hg'
  refine ⟨hiff.trans ?_, heq⟩
  rw [clear_mem_between]
  constructor
  · rintro ⟨rfl, hclear⟩
    exact ⟨site, values, values', hi, hj, fun k hik hkj hk => hclear ⟨k, hik, by omega, hk⟩⟩
  · rintro ⟨_, _, _, hi', hj', hclear⟩
    rw [hi] at hi'
    cases hi'
    rw [hj] at hj'
    cases hj'
    refine ⟨rfl, ?_⟩
    rintro ⟨k, hik, hkj, hk⟩
    rcases Nat.lt_succ_iff_lt_or_eq.1 hkj with hkj | rfl
    · exact hclear k hik hkj hk
    · rw [hj] at hk
      cases hk

/-- What is remembered behind a run under the number of one of its templates is the
skeleton of that template. -/
theorem kept_of_answer {requests : List Request} {i : Nat} {s : SharedSkeleton}
    (hs : (serve requests {}).1[i]?.bind Answer.skeleton? = some s) {e : CallSite × SharedSkeleton}
    (he : e ∈ (serve requests {}).2.cache.skeletons) (hid : e.2.id = s.id) : e.2 = s := by
  obtain ⟨site, values, -, hg⟩ := remembered_of_answer hs
  have sound : ∀ rs : List Request, (serve rs {}).2.cache.Sound :=
    serve_sound (Cache.sound_empty 0)
  have he := Entries.get?_of_mem (sound requests).sites he
  rw [← List.take_append_drop (i + 1) requests, serve_append] at he
  exact ((remembered_iff (sound _) hg _ he).2 hid.symm).symm

/-- The cache is not to be noticed. In every run from a new workshop,
each answer is what parsing the fragments anew and counting the values gives;
two templates share their skeleton exactly when they are of one site with no clearing
between them; behind every prefix the cache holds the sites that were used since the last
clearing and parse, each once and with what was parsed;
and what follows a prefix changes nothing of its answers, nor does a later skeleton take
the number of one that a template holds. -/
theorem serve_transparent (requests : List Request) :
    List.Forall₂ Request.Answered requests (serve requests {}).1 ∧
      (∀ (i j : Nat) s s', i < j →
        (serve requests {}).1[i]?.bind Answer.skeleton? = some s →
        (serve requests {}).1[j]?.bind Answer.skeleton? = some s' →
        (s = s' ↔ Request.SameUse requests i j) ∧ (s.id = s'.id ↔ Request.SameUse requests i j)) ∧
      (∀ n, (Entries.names (serve (requests.take n) {}).2.cache.skeletons).Nodup ∧
        (∀ site, site ∈ Entries.names (serve (requests.take n) {}).2.cache.skeletons ↔
          Request.UsedSinceClear site (requests.take n) ∧
            ∃ skeleton, Skeleton.parse site.fragments = .ok skeleton) ∧
        ∀ e ∈ (serve (requests.take n) {}).2.cache.skeletons,
          Skeleton.parse e.1.fragments = .ok e.2.skeleton) ∧
      (∀ n, (serve (requests.take n) {}).1 = (serve requests {}).1.take n) ∧
      (∀ (i : Nat) s, (serve requests {}).1[i]?.bind Answer.skeleton? = some s →
        ∀ e ∈ (serve requests {}).2.cache.skeletons, e.2.id = s.id → e.2 = s) := by
  have sound : ∀ rs : List Request, (serve rs {}).2.cache.Sound :=
    serve_sound (Cache.sound_empty 0)
  refine ⟨serve_answered (Cache.sound_empty 0) requests, ?_, ?_, ?_, ?_⟩
  · intro i j s s' hij hs hs'
    obtain ⟨hiff, heq⟩ := shared_iff hij hs hs'
    exact ⟨⟨fun h => hiff.1 (h ▸ rfl), fun h => heq (hiff.2 h)⟩, hiff⟩
  · intro n
    exact ⟨(sound _).sites, mem_serve _, (sound _).parsed⟩
  · exact fun n => serve_take requests n {}
  · exact fun i s hs e he hid => kept_of_answer hs he hid

/-- The site is entered although the first count of values is wrong; fragments that do not
parse leave nothing behind. -/
example :
    let site : CallSite := ⟨none, ["<p>", "</p>"]⟩
    let broken : CallSite := ⟨none, ["<p !>"]⟩
    let bones : Skeleton := ⟨[.element "p" [] [.hole 0]], 1⟩
    (serve [.invoke site [], .invoke site [.null], .invoke broken [], .invoke site [.bool true],
        .clear, .invoke site [.null]] {}).1.map Answer.skeleton? =
      [none, some ⟨.parsed 0, bones⟩, none, some ⟨.parsed 0, bones⟩, none,
        some ⟨.parsed 1, bones⟩] := by
  decide +kernel

end Workshop

end LiveTemplate
