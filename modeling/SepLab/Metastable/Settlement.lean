import SepLab.Lib.Listed
import SepLab.Lib.Placement
import SepLab.Metastable.Client

/-!
# Every attempt is settled once, and every request counted once

A request is in one place at a time: with a thread, or with an attempt that is not settled, or
counted.  Whoever settles an attempt takes the request from it, and counts it or makes another
attempt of it.  The timer has an entry for each attempt until it has processed it, so that no
attempt is left unsettled; what a restart discards is only the work.

## Main definitions

* `Requests`, `Finishes` — where the requests are, and the calls of `finish_attempt`.
* `Inv` — what all threads keep.
* `SettlesOnce` — what the clients' side is for.

## Main results

* `Inv.exchange_win`, `Inv.create`, … — what the accesses to shared data keep.
* `Inv.advance` — a thread that goes on keeps the invariant.
* `Inv.settlesOnce` — what the invariant says of the clients' side.
-/

namespace SepLab
namespace Metastable
namespace Client

variable {R K : Type} [DecidableEq R] [DecidableEq K]

namespace Pc

/-- The request that the thread has to count or to submit. -/
def holds : Pc R → Option R
  | .finishing r _ _ | .scoring r _ | .deciding r | .failing r | .submitting r | .choosing r _
  | .limiting r _ _ | .shedding r | .creating r _ => some r
  | _ => none

/-- The attempt that the thread has called `finish_attempt` for. -/
def calls : Pc R → Option (Attempt R)
  | .finishing _ _ origin => origin
  | _ => none

/-- The attempt whose timer entry the thread has in its hands. -/
def watches : Pc R → Option (Attempt R)
  | .joining a | .enqueuing a | .arming a | .popped a => some a
  | _ => none

/-- The thread has found its attempt settled before. -/
def isLate : Pc R → Bool
  | .late _ => true
  | _ => false

/-- The success that the thread is going to count. -/
def good : Pc R → Option (R × Option (Attempt R))
  | .finishing r true origin | .scoring r origin => some (r, origin)
  | _ => none

/-- The attempt that the thread works on. -/
def attempt : Pc R → Option (Attempt R)
  | .taken a | .dropping a | .dropped a | .serving a | .completing a | .checking a | .filling a _
  | .completed a _ | .late a | .popped a | .joining a | .enqueuing a | .arming a => some a
  | _ => none

end Pc

/-- Where a request is, when no thread has it. -/
inductive Spot (R : Type)
  | fresh
  /-- With an attempt that is not settled. -/
  | attempt (a : Attempt R)
  | counted

/-- The requests that have been counted. -/
def Clients.counted (c : Clients R) : List R := c.goods.map Prod.fst ++ c.bads

/-! ### Where the requests are -/

/-- Each request is with the thread that holds it, or with its unsettled attempt, or counted. -/
def Requests (c : Clients R) (hold : Thread → Option R) : Prop :=
  ∃ place : R → Place Thread (Spot R), Placed hold place ∧
    (∀ r a, place r = .spot (.attempt a) ↔ a ∈ c.attempts ∧ c.settled a = none ∧ a.req = r) ∧
    (∀ r, place r = .spot .counted ↔ r ∈ c.counted) ∧ c.counted.Nodup ∧
    ∀ r, place r = .spot .fresh ↔ r ∉ c.arrived

namespace Requests

variable {c c' : Clients R} {hold : Thread → Option R} {θ : Thread} {a : Attempt R} {r : R}

/-- The thread that settles an attempt gets its request. -/
theorem settle (h : Requests c hold) (hθ : hold θ = none) (ha : a ∈ c.attempts)
    (hs : c.settled a = none) (settler : Settler)
    (hsettled : c'.settled = Function.update c.settled a (some settler))
    (hattempts : c'.attempts = c.attempts) (hcounted : c'.counted = c.counted)
    (harrived : c'.arrived = c.arrived) :
    Requests c' (Function.update hold θ (some a.req)) := by
  obtain ⟨place, hplaced, hat, hcount, hnodup, hfresh⟩ := h
  -- the request is at the attempt, which nobody has settled, and goes to the thread's hand
  have hr : place a.req = .spot (.attempt a) := (hat _ _).mpr ⟨ha, hs, rfl⟩
  refine ⟨Function.update place a.req (.hand θ), hplaced.take hθ hr, fun r b => ?_, fun r => ?_,
    hcounted ▸ hnodup, fun r => ?_⟩
  · rw [hsettled, hattempts]
    by_cases hb : b = a
    · subst hb
      rw [Function.update_self]
      refine iff_of_false ?_ (by simp)
      by_cases hrb : r = b.req
      · simp [hrb]
      · rw [Function.update_of_ne hrb, hat]
        exact fun hc => hrb hc.2.2.symm
    · rw [Function.update_of_ne hb]
      by_cases hra : r = a.req
      · rw [hra, Function.update_self]
        refine iff_of_false nofun fun hc => hb ?_
        have := (hat a.req b).mpr hc
        rw [hr] at this
        simpa using this.symm
      · rw [Function.update_of_ne hra, hat]
  · rw [hcounted, ← hcount]
    exact update_spot_iff (by simp [hr]) (by simp) r
  · rw [harrived, ← hfresh]
    exact update_spot_iff (by simp [hr]) (by simp) r

/-- A thread counts the request that it has. -/
theorem count (h : Requests c hold) (hθ : hold θ = some r)
    (hcounted : c'.counted.Perm (r :: c.counted)) (hsettled : c'.settled = c.settled)
    (hattempts : c'.attempts = c.attempts) (harrived : c'.arrived = c.arrived) :
    Requests c' (Function.update hold θ none) := by
  obtain ⟨place, hplaced, hat, hcount, hnodup, hfresh⟩ := h
  have hr : place r = .hand θ := (hplaced θ r).mp hθ
  refine ⟨Function.update place r (.spot .counted), hplaced.put hθ _, fun r' b => ?_, fun r' => ?_,
    ?_, fun r' => ?_⟩
  · rw [hsettled, hattempts, ← hat]
    exact update_spot_iff (by simp [hr]) (by simp) r'
  · rw [hcounted.mem_iff, List.mem_cons, ← hcount]
    by_cases hr' : r' = r
    · simp [hr']
    · rw [Function.update_of_ne hr', or_iff_right hr']
  · rw [hcounted.nodup_iff, List.nodup_cons, ← hcount, hr]
    exact ⟨nofun, hnodup⟩
  · rw [harrived, ← hfresh]
    exact update_spot_iff (by simp [hr]) (by simp) r'

/-- A thread makes a new attempt of the request that it has. -/
theorem create (h : Requests c hold) (hθ : hold θ = some a.req) (hnew : a ∉ c.attempts)
    (hs : c.settled a = none) (hsettled : c'.settled = c.settled)
    (hattempts : c'.attempts = c.attempts ++ [a]) (hcounted : c'.counted = c.counted)
    (harrived : c'.arrived = c.arrived) : Requests c' (Function.update hold θ none) := by
  obtain ⟨place, hplaced, hat, hcount, hnodup, hfresh⟩ := h
  have hr : place a.req = .hand θ := (hplaced θ a.req).mp hθ
  refine ⟨Function.update place a.req (.spot (.attempt a)), hplaced.put hθ _, fun r b => ?_,
    fun r => ?_, hcounted ▸ hnodup, fun r => ?_⟩
  · rw [hsettled, hattempts, List.mem_append, List.mem_singleton]
    by_cases hra : r = a.req
    · subst hra
      rw [Function.update_self]
      constructor
      · intro heq
        obtain rfl : a = b := by simpa using heq
        exact ⟨Or.inr rfl, hs, rfl⟩
      -- an older attempt of the request would hold it, but the thread does
      · rintro ⟨hb | rfl, hsb, hrb⟩
        · have := (hat a.req b).mpr ⟨hb, hsb, hrb⟩
          rw [hr] at this
          cases this
        · rfl
    · rw [Function.update_of_ne hra, hat]
      constructor
      · exact fun ⟨hb, hc⟩ => ⟨Or.inl hb, hc⟩
      · rintro ⟨hb | rfl, hsb, hrb⟩
        · exact ⟨hb, hsb, hrb⟩
        · exact absurd hrb.symm hra
  · rw [hcounted, ← hcount]
    exact update_spot_iff (by simp [hr]) (by simp) r
  · rw [harrived, ← hfresh]
    exact update_spot_iff (by simp [hr]) (by simp) r

/-- A request arrives. -/
theorem arrive (h : Requests c hold) (hθ : hold θ = none) (hr : r ∉ c.arrived)
    (hsettled : c'.settled = c.settled) (hattempts : c'.attempts = c.attempts)
    (hcounted : c'.counted = c.counted) (harrived : c'.arrived = c.arrived ++ [r]) :
    Requests c' (Function.update hold θ (some r)) := by
  obtain ⟨place, hplaced, hat, hcount, hnodup, hfresh⟩ := h
  have hplace : place r = .spot .fresh := (hfresh r).mpr hr
  refine ⟨Function.update place r (.hand θ), hplaced.take hθ hplace, fun r' b => ?_, fun r' => ?_,
    hcounted ▸ hnodup, fun r' => ?_⟩
  · rw [hsettled, hattempts, ← hat]
    exact update_spot_iff (by simp [hplace]) (by simp) r'
  · rw [hcounted, ← hcount]
    exact update_spot_iff (by simp [hplace]) (by simp) r'
  · rw [harrived, List.mem_append, List.mem_singleton]
    by_cases hr' : r' = r
    · simp [hr']
    · rw [Function.update_of_ne hr', hfresh, or_iff_left hr']

end Requests

/-! ### The calls of `finish_attempt` -/

/-- How far an attempt has got, when no thread is about to run `finish_attempt` for it. -/
inductive Stage
  | unsettled
  | finished

/-- `finish_attempt` is called for an attempt when it is settled, and runs once. -/
def Finishes (c : Clients R) (call : Thread → Option (Attempt R)) : Prop :=
  ∃ place : Attempt R → Place Thread Stage, Placed call place ∧
    (∀ a, place a = .spot .unsettled ↔ c.settled a = none) ∧
    (∀ a, place a = .spot .finished ↔ a ∈ c.finished) ∧ c.finished.Nodup

namespace Finishes

variable {c c' : Clients R} {call : Thread → Option (Attempt R)} {θ : Thread} {a : Attempt R}

omit [DecidableEq R] in
theorem of_eq (h : Finishes c call) (hsettled : c'.settled = c.settled)
    (hfinished : c'.finished = c.finished) : Finishes c' call := by
  unfold Finishes
  rw [hsettled, hfinished]
  exact h

theorem settle (h : Finishes c call) (hθ : call θ = none) (hs : c.settled a = none)
    (settler : Settler) (hsettled : c'.settled = Function.update c.settled a (some settler))
    (hfinished : c'.finished = c.finished) : Finishes c' (Function.update call θ (some a)) := by
  obtain ⟨place, hplaced, hopen, hdone, hnodup⟩ := h
  have ha : place a = .spot .unsettled := (hopen a).mpr hs
  refine ⟨Function.update place a (.hand θ), hplaced.take hθ ha, fun b => ?_, fun b => ?_,
    hfinished ▸ hnodup⟩
  · rw [hsettled]
    by_cases hb : b = a
    · subst hb
      simp
    · rw [Function.update_of_ne hb, Function.update_of_ne hb, hopen]
  · rw [hfinished, ← hdone]
    exact update_spot_iff (by simp [ha]) (by simp) b

theorem finish (h : Finishes c call) (hθ : call θ = some a) (hsettled : c'.settled = c.settled)
    (hfinished : c'.finished = c.finished ++ [a]) : Finishes c' (Function.update call θ none) := by
  obtain ⟨place, hplaced, hopen, hdone, hnodup⟩ := h
  have ha : place a = .hand θ := (hplaced θ a).mp hθ
  refine ⟨Function.update place a (.spot .finished), hplaced.put hθ _, fun b => ?_, fun b => ?_, ?_⟩
  · rw [hsettled, ← hopen]
    exact update_spot_iff (by simp [ha]) (by simp) b
  · rw [hfinished, List.mem_append, List.mem_singleton]
    by_cases hb : b = a
    · simp [hb]
    · rw [Function.update_of_ne hb, hdone, or_iff_left hb]
  · rw [hfinished]
    refine nodup_append_singleton hnodup fun hmem => ?_
    rw [← hdone, ha] at hmem
    cases hmem

end Finishes

/-! ### The invariant -/

/-- The success comes from an attempt that was completed in time, before anybody else settled it. -/
def Good (c : Clients R) (g : R × Option (Attempt R)) : Prop :=
  ∃ a t, g.2 = some a ∧ a.req = g.1 ∧ c.settled a = some (.complete t) ∧ t ≤ a.deadline

/-- What all threads keep. -/
structure Inv (c : Clients R) (pc : Thread → Pc R) (apps : ℕ → App R) : Prop where
  requests : Requests c (Pc.holds ∘ pc)
  finishes : Finishes c (Pc.calls ∘ pc)
  ids : ∀ a ∈ c.attempts, a.id < c.attempts.length
  made : ∀ a, c.settled a ≠ none → a ∈ c.attempts
  threads : ∀ θ a, (pc θ).attempt = some a → a ∈ c.attempts
  pending : ∀ a ∈ c.pending, a ∈ c.attempts
  queues : ∀ k a, a ∈ (apps k).dbq ∨ a ∈ (apps k).fastq → a ∈ c.attempts
  /-- The timer has, or will get, the entry of each attempt until it has processed it. -/
  watched : ∀ a ∈ c.attempts, a ∈ c.pending ∨ (∃ θ, (pc θ).watches = some a) ∨ a ∈ c.processed
  processed : ∀ a ∈ c.processed, c.settled a ≠ none
  good : ∀ g, (∃ θ, (pc θ).good = some g) ∨ g ∈ c.goods → Good c g
  late : ∃ xs, Listed xs (Pc.isLate ∘ pc) true ∧ c.metrics.zombie + xs.length = c.overtaken
  tries : ∀ r, c.attempt r < maxAttempts
  submits : ∀ r, c.submits r = c.attempt r + if r ∈ c.arrived then 1 else 0
  counts : c.metrics.goodput = c.goods.length ∧ c.metrics.failed = c.bads.length

variable {c c' : Clients R} {pc : Thread → Pc R} {apps apps' : ℕ → App R} {θ : Thread} {p q : Pc R}
  {a : Attempt R} {r : R}

omit [DecidableEq R] in
/-- What is read off the thread stays as it is. -/
theorem view_eq {β : Type} {f : Pc R → β} (h : f q = f (pc θ)) :
    f ∘ Function.update pc θ q = f ∘ pc := by
  rw [Function.comp_update, h]
  exact Function.update_eq_self θ (f ∘ pc)

omit [DecidableEq R] in
/-- What some thread has after a step, it has before, or the thread that has gone on has it. -/
theorem exists_view {β : Type} {f : Pc R → Option β} {x : β}
    (h : ∃ θ', f (Function.update pc θ q θ') = some x) :
    f q = some x ∨ ∃ θ', f (pc θ') = some x := by
  obtain ⟨θ', h⟩ := h
  by_cases hθ' : θ' = θ
  · rw [hθ', Function.update_self] at h
    exact Or.inl h
  · rw [Function.update_of_ne hθ'] at h
    exact Or.inr ⟨θ', h⟩

omit [DecidableEq R] in
/-- What some thread has before a step, it has after it, or the thread that goes on had it. -/
theorem view_exists {β : Type} {f : Pc R → Option β} {x : β} (h : ∃ θ', f (pc θ') = some x) :
    f (pc θ) = some x ∨ ∃ θ', f (Function.update pc θ q θ') = some x := by
  obtain ⟨θ', h⟩ := h
  by_cases hθ' : θ' = θ
  · exact Or.inl (hθ' ▸ h)
  · refine Or.inr ⟨θ', ?_⟩
    rw [Function.update_of_ne hθ']
    exact h

omit [DecidableEq R] in
theorem Good.mono {g : R × Option (Attempt R)} (h : Good c g)
    (hsettled : ∀ a x, c.settled a = some x → c'.settled a = some x) : Good c' g := by
  obtain ⟨a, t, ha, hr, hs, ht⟩ := h
  exact ⟨a, t, ha, hr, hsettled a _ hs, ht⟩

/-- **A thread goes on**, and the clients' data follow it. -/
theorem Inv.act (h : Inv c pc apps)
    (hrequests : Requests c' (Function.update (Pc.holds ∘ pc) θ q.holds))
    (hfinishes : Finishes c' (Function.update (Pc.calls ∘ pc) θ q.calls))
    (hids : ∀ a ∈ c'.attempts, a.id < c'.attempts.length)
    (hattempts : ∀ a ∈ c.attempts, a ∈ c'.attempts)
    (hnew : ∀ a ∈ c'.attempts, a ∈ c.attempts ∨ q.watches = some a)
    (hsettled : ∀ a x, c.settled a = some x → c'.settled a = some x)
    (hmade : ∀ a, c'.settled a ≠ none → a ∈ c'.attempts)
    (hattempt : ∀ a, q.attempt = some a → a ∈ c'.attempts)
    (hpending : ∀ a ∈ c'.pending, a ∈ c'.attempts)
    (hwatched : ∀ a, a ∈ c.pending ∨ (pc θ).watches = some a ∨ a ∈ c.processed →
      a ∈ c'.pending ∨ q.watches = some a ∨ a ∈ c'.processed)
    (hprocessed : ∀ a ∈ c'.processed, c'.settled a ≠ none)
    (hgood : ∀ g, q.good = some g ∨ g ∈ c'.goods →
      (pc θ).good = some g ∨ g ∈ c.goods ∨ Good c' g)
    (hlate : c'.metrics.zombie + q.isLate.toNat + c.overtaken =
      c.metrics.zombie + (pc θ).isLate.toNat + c'.overtaken)
    (htries : ∀ r, c'.attempt r < maxAttempts)
    (hsubmits : ∀ r, c'.submits r = c'.attempt r + if r ∈ c'.arrived then 1 else 0)
    (hcounts : c'.metrics.goodput = c'.goods.length ∧ c'.metrics.failed = c'.bads.length) :
    Inv c' (Function.update pc θ q) apps where
  requests := by
    rw [Function.comp_update]
    exact hrequests
  finishes := by
    rw [Function.comp_update]
    exact hfinishes
  ids := hids
  made := hmade
  threads θ' a ha := by
    rcases exists_view (f := Pc.attempt) ⟨θ', ha⟩ with ha | ⟨θ', ha⟩
    · exact hattempt a ha
    · exact hattempts a (h.threads θ' a ha)
  pending := hpending
  queues k a ha := hattempts a (h.queues k a ha)
  watched a ha := by
    have hself : q.watches = some a → ∃ θ', (Function.update pc θ q θ').watches = some a :=
      fun hq => ⟨θ, by rw [Function.update_self, hq]⟩
    have hgone : a ∈ c.pending ∨ (pc θ).watches = some a ∨ a ∈ c.processed →
        a ∈ c'.pending ∨ (∃ θ', (Function.update pc θ q θ').watches = some a) ∨
          a ∈ c'.processed :=
      fun hw => (hwatched a hw).imp_right (Or.imp_left hself)
    rcases hnew a ha with ha | hq
    · rcases h.watched a ha with hp | hw | hp
      · exact hgone (Or.inl hp)
      · rcases view_exists (θ := θ) (q := q) (f := Pc.watches) hw with hw | hw
        · exact hgone (Or.inr (Or.inl hw))
        · exact Or.inr (Or.inl hw)
      · exact hgone (Or.inr (Or.inr hp))
    · exact Or.inr (Or.inl (hself hq))
  processed := hprocessed
  good g hg := by
    have hold : (∃ θ', (pc θ').good = some g) ∨ g ∈ c.goods → Good c' g :=
      fun hg => (h.good g hg).mono hsettled
    have hown : q.good = some g ∨ g ∈ c'.goods → Good c' g := by
      intro hg
      rcases hgood g hg with hg | hg | hg
      · exact hold (Or.inl ⟨θ, hg⟩)
      · exact hold (Or.inr hg)
      · exact hg
    rcases hg with hg | hg
    · rcases exists_view (f := Pc.good) hg with hg | hg
      · exact hown (Or.inl hg)
      · exact hold (Or.inl hg)
    · exact hown (Or.inr hg)
  late := by
    -- `xs` are the threads that have come too late and not counted it yet
    obtain ⟨xs, hxs, hcount⟩ := h.late
    refine ⟨relist xs θ (q.isLate = true), ?_, ?_⟩
    · rw [Function.comp_update]
      exact hxs.relist
    · have hlen := hxs.length_relist θ (decide (q.isLate = true))
      simp only [Function.comp_apply, decide_eq_true_eq] at hlen
      cases hq : q.isLate <;> cases hp : (pc θ).isLate <;> simp [hq, hp] at hlen hlate ⊢ <;> omega
  tries := htries
  submits := hsubmits
  counts := hcounts

theorem Inv.requests_stay (h : Inv c pc apps) (hp : pc θ = p) (hholds : q.holds = p.holds) :
    Requests c (Function.update (Pc.holds ∘ pc) θ q.holds) := by
  rw [← Function.comp_update, view_eq (hp ▸ hholds)]
  exact h.requests

theorem Inv.finishes_stay (h : Inv c pc apps) (hp : pc θ = p) (hcalls : q.calls = p.calls) :
    Finishes c (Function.update (Pc.calls ∘ pc) θ q.calls) := by
  rw [← Function.comp_update, view_eq (hp ▸ hcalls)]
  exact h.finishes

/-- A thread goes on with what it has. -/
theorem Inv.goto (h : Inv c pc apps) (hp : pc θ = p) (hholds : q.holds = p.holds)
    (hcalls : q.calls = p.calls) (hwatches : q.watches = p.watches)
    (hlate : q.isLate = p.isLate) (hgood : ∀ g, q.good = some g → p.good = some g)
    (hattempt : ∀ a, q.attempt = some a → p.attempt = some a ∨ a ∈ c.attempts) :
    Inv c (Function.update pc θ q) apps := by
  refine h.act (h.requests_stay hp hholds) (h.finishes_stay hp hcalls) h.ids (fun _ => id)
    (fun _ => Or.inl) (fun _ _ => id) h.made ?_ h.pending ?_ h.processed ?_ ?_ h.tries h.submits
    h.counts
  · intro a ha
    exact (hattempt a ha).elim (fun ha => h.threads θ a (hp ▸ ha)) id
  · intro a ha
    rwa [hwatches, ← hp]
  · exact fun g hg => hg.imp (fun hg => hp ▸ hgood g hg) Or.inl
  · rw [hlate, hp]

/-- A thread that works on no attempt goes on, and the attempts stay as they are. -/
theorem Inv.record (h : Inv c pc apps) (hp : pc θ = p) (hwatches : p.watches = none)
    (hq : q.attempt = none)
    (hsame : c'.attempts = c.attempts ∧ c'.settled = c.settled ∧ c'.pending = c.pending ∧
      c'.processed = c.processed)
    (hrequests : Requests c' (Function.update (Pc.holds ∘ pc) θ q.holds))
    (hfinishes : Finishes c' (Function.update (Pc.calls ∘ pc) θ q.calls))
    (hgood : ∀ g, q.good = some g ∨ g ∈ c'.goods → p.good = some g ∨ g ∈ c.goods)
    (hlate : c'.metrics.zombie + q.isLate.toNat + c.overtaken =
      c.metrics.zombie + p.isLate.toNat + c'.overtaken)
    (htries : ∀ r, c'.attempt r < maxAttempts)
    (hsubmits : ∀ r, c'.submits r = c'.attempt r + if r ∈ c'.arrived then 1 else 0)
    (hcounts : c'.metrics.goodput = c'.goods.length ∧ c'.metrics.failed = c'.bads.length) :
    Inv c' (Function.update pc θ q) apps := by
  obtain ⟨hattempts, hsettled, hpending, hprocessed⟩ := hsame
  subst hp
  refine h.act hrequests hfinishes (hattempts ▸ h.ids) ?_ ?_ ?_ ?_ ?_ ?_ ?_ ?_ ?_ hlate htries
    hsubmits hcounts
  · exact fun a ha => hattempts ▸ ha
  · exact fun a ha => Or.inl (hattempts ▸ ha)
  · exact fun a x ha => hsettled ▸ ha
  · rw [hsettled, hattempts]
    exact h.made
  · rw [hq]
    exact nofun
  · rw [hpending, hattempts]
    exact h.pending
  · rw [hpending, hprocessed, hwatches]
    rintro a (ha | ha | ha)
    · exact Or.inl ha
    · cases ha
    · exact Or.inr (Or.inr ha)
  · rw [hprocessed, hsettled]
    exact h.processed
  · exact fun g hg => (hgood g hg).imp_right Or.inl

/-! ### The accesses to the clients' data -/

/-- **Who is first in `settled.exchange(true)`** takes the request from the attempt. -/
theorem Inv.exchange_win (h : Inv c pc apps) (hholds : (pc θ).holds = none)
    (hcalls : (pc θ).calls = none) (hlate : (pc θ).isLate = false) (ha : a ∈ c.attempts)
    (hs : c.settled a = none) (settler : Settler) (ok : Bool)
    (hok : ok = true → ∃ t, settler = .complete t ∧ t ≤ a.deadline) {l : List (Attempt R)}
    (hl : ∀ b ∈ l, b = a) (hw : ∀ b, (pc θ).watches = some b → b ∈ l) :
    Inv { c with
        settled := Function.update c.settled a (some settler)
        processed := c.processed ++ l }
      (Function.update pc θ (.finishing a.req ok (some a))) apps := by
  -- the flag was clear, so that nobody's settlement is overwritten
  have hmono : ∀ b x, c.settled b = some x →
      Function.update c.settled a (some settler) b = some x := by
    intro b x hb
    rw [Function.update_of_ne, hb]
    rintro rfl
    rw [hs] at hb
    cases hb
  have hkept : ∀ b, c.settled b ≠ none → Function.update c.settled a (some settler) b ≠ none := by
    intro b hb
    obtain ⟨x, hx⟩ := Option.ne_none_iff_exists'.mp hb
    rw [hmono b x hx]
    exact Option.some_ne_none x
  refine h.act (h.requests.settle hholds ha hs settler rfl rfl rfl rfl)
    (h.finishes.settle hcalls hs settler rfl rfl) h.ids (fun _ => id) (fun _ => Or.inl) hmono ?_
    nofun h.pending ?_ ?_ ?_ ?_ h.tries h.submits h.counts
  · intro b hb
    by_cases hba : b = a
    · exact hba ▸ ha
    · exact h.made b fun hnone => hb ((Function.update_of_ne hba _ _).trans hnone)
  · rintro b (hb | hb | hb)
    · exact Or.inl hb
    · exact Or.inr (Or.inr (List.mem_append_right _ (hw b hb)))
    · exact Or.inr (Or.inr (List.mem_append_left _ hb))
  · intro b hb
    rcases List.mem_append.mp hb with hb | hb
    · exact hkept b (h.processed b hb)
    · show Function.update c.settled a (some settler) b ≠ none
      rw [hl b hb, Function.update_self]
      exact Option.some_ne_none settler
  · rintro g (hg | hg)
    · cases ok with
      | false => cases hg
      | true =>
        obtain ⟨t, rfl, ht⟩ := hok rfl
        cases hg
        exact Or.inr (Or.inr ⟨a, t, rfl, rfl, Function.update_self _ _ _, ht⟩)
    · exact Or.inr (Or.inl hg)
  · rw [hlate]
    rfl

/-- Who comes second leaves the request alone; a completion that comes second is a zombie. -/
theorem Inv.exchange_lose (h : Inv c pc apps) (hholds : (pc θ).holds = none)
    (hcalls : (pc θ).calls = none) (hlate : (pc θ).isLate = false) (ha : a ∈ c.attempts)
    (hs : c.settled a ≠ none) {l : List (Attempt R)} (hl : ∀ b ∈ l, b = a)
    (hw : ∀ b, (pc θ).watches = some b → b ∈ l) (hp : p = .idle ∨ p = .late a) :
    Inv { c with
        processed := c.processed ++ l
        overtaken := c.overtaken + p.isLate.toNat } (Function.update pc θ p) apps := by
  -- the loser has neither a request nor a call in hand, and no goodput to report
  have hview : p.holds = none ∧ p.calls = none ∧ p.good = none ∧
      ∀ b, p.attempt = some b → b ∈ c.attempts := by
    rcases hp with rfl | rfl
    · exact ⟨rfl, rfl, rfl, nofun⟩
    · exact ⟨rfl, rfl, rfl, fun b hb => Option.some_inj.mp hb ▸ ha⟩
  refine h.act (h.requests_stay rfl (hview.1.trans hholds.symm))
    (h.finishes_stay rfl (hview.2.1.trans hcalls.symm)) h.ids (fun _ => id) (fun _ => Or.inl)
    (fun _ _ => id) h.made hview.2.2.2 h.pending ?_ ?_ ?_ ?_ h.tries h.submits h.counts
  · rintro b (hb | hb | hb)
    · exact Or.inl hb
    · exact Or.inr (Or.inr (List.mem_append_right _ (hw b hb)))
    · exact Or.inr (Or.inr (List.mem_append_left _ hb))
  · intro b hb
    rcases List.mem_append.mp hb with hb | hb
    · exact h.processed b hb
    · exact hl b hb ▸ hs
  · rintro g (hg | hg)
    · rw [hview.2.2.1] at hg
      cases hg
    · exact Or.inr (Or.inl hg)
  · rw [hlate]
    simp
    omega

/-- `finish_attempt` starts. -/
theorem Inv.finish {ok : Bool} {origin : Option (Attempt R)} (h : Inv c pc apps)
    (hp : pc θ = .finishing r ok origin) :
    Inv { c with
        metrics := { c.metrics with thruput := c.metrics.thruput + 1 }
        finished := c.finished ++ origin.toList }
      (Function.update pc θ (if ok then .scoring r origin else .deciding r)) apps := by
  have hfinishes : Finishes { c with finished := c.finished ++ origin.toList }
      (Function.update (Pc.calls ∘ pc) θ none) := by
    have hcalls : (Pc.calls ∘ pc) θ = origin := by
      rw [Function.comp_apply, hp]
      rfl
    cases origin with
    | none =>
      rw [Function.update_eq_self_iff.mpr hcalls.symm]
      exact h.finishes.of_eq rfl (List.append_nil _)
    | some a => exact h.finishes.finish hcalls rfl rfl
  -- the request stays with the thread on both ways, until it is counted or submitted again
  cases ok with
  | true =>
    exact h.record hp rfl rfl ⟨rfl, rfl, rfl, rfl⟩ (h.requests_stay hp rfl) hfinishes (fun _ => id)
      rfl h.tries h.submits h.counts
  | false =>
    exact h.record hp rfl rfl ⟨rfl, rfl, rfl, rfl⟩ (h.requests_stay hp rfl) hfinishes (fun _ => id)
      rfl h.tries h.submits h.counts

/-- A success is counted in `goodput`. -/
theorem Inv.score {origin : Option (Attempt R)} (h : Inv c pc apps)
    (hp : pc θ = .scoring r origin) :
    Inv { c with
        metrics := { c.metrics with goodput := c.metrics.goodput + 1 }
        goods := c.goods ++ [(r, origin)] } (Function.update pc θ .depositing) apps := by
  refine h.record hp rfl rfl ⟨rfl, rfl, rfl, rfl⟩ ?_ (h.finishes_stay hp rfl) ?_ rfl h.tries
    h.submits ?_
  · refine h.requests.count (by rw [Function.comp_apply, hp]; rfl) ?_ rfl rfl rfl
    simp only [Clients.counted, List.map_append, List.map_cons, List.map_nil, List.append_assoc]
    exact List.perm_middle
  · rintro g (hg | hg)
    · cases hg
    · rcases List.mem_append.mp hg with hg | hg
      · exact Or.inr hg
      · rw [List.mem_singleton.mp hg]
        exact Or.inl rfl
  · have := h.counts
    simpa using this

/-- A failure is counted in `failed`. -/
theorem Inv.fail (h : Inv c pc apps) (hp : pc θ = .failing r) :
    Inv { c with
        metrics := { c.metrics with failed := c.metrics.failed + 1 }
        bads := c.bads ++ [r] } (Function.update pc θ .idle) apps := by
  refine h.record hp rfl rfl ⟨rfl, rfl, rfl, rfl⟩ ?_ (h.finishes_stay hp rfl) (fun _ => id) rfl
    h.tries h.submits ?_
  · refine h.requests.count (by rw [Function.comp_apply, hp]; rfl) ?_ rfl rfl rfl
    simp only [Clients.counted, ← List.append_assoc]
    exact List.perm_append_singleton r _
  · have := h.counts
    simpa using this

/-- A request that a thread has, has arrived. -/
theorem Inv.arrived_of_holds (h : Inv c pc apps) (hr : (pc θ).holds = some r) : r ∈ c.arrived := by
  obtain ⟨place, hplaced, -, -, -, hfresh⟩ := h.requests
  by_contra hnot
  exact hplaced.not_held ((hfresh r).mpr hnot) θ hr

/-- A request is submitted again. -/
theorem Inv.retry (h : Inv c pc apps) (hp : pc θ = .deciding r)
    (htries : c.attempt r + 1 < maxAttempts) :
    Inv { c with
        attempt := Function.update c.attempt r (c.attempt r + 1)
        metrics := { c.metrics with retries := c.metrics.retries + 1 }
        submits := Function.update c.submits r (c.submits r + 1) }
      (Function.update pc θ (.submitting r)) apps := by
  refine h.record hp rfl rfl ⟨rfl, rfl, rfl, rfl⟩ (h.requests_stay hp rfl) (h.finishes_stay hp rfl)
    (fun _ => id) rfl ?_ ?_ h.counts
  · intro r'
    show Function.update c.attempt r (c.attempt r + 1) r' < maxAttempts
    by_cases hr' : r' = r
    · rw [hr', Function.update_self]
      exact htries
    · rw [Function.update_of_ne hr']
      exact h.tries r'
  · intro r'
    show Function.update c.submits r (c.submits r + 1) r' =
      Function.update c.attempt r (c.attempt r + 1) r' + if r' ∈ c.arrived then 1 else 0
    by_cases hr' : r' = r
    · rw [hr', Function.update_self, Function.update_self, h.submits]
      omega
    · rw [Function.update_of_ne hr', Function.update_of_ne hr']
      exact h.submits r'

/-- `submit` creates an attempt. -/
theorem Inv.create (h : Inv c pc apps) {k : ℕ} (hp : pc θ = .creating a.req k)
    (hid : a.id = c.attempts.length) :
    Inv { c with attempts := c.attempts ++ [a] } (Function.update pc θ (.joining a)) apps := by
  -- its id is new, and so is its flag
  have hnew : a ∉ c.attempts := fun ha => Nat.lt_irrefl _ (hid ▸ h.ids a ha)
  have hs : c.settled a = none := by
    by_contra hs
    exact hnew (h.made a hs)
  refine h.act ?_ ?_ ?_ (fun b => List.mem_append_left _) ?_ (fun _ _ => id) ?_ ?_ ?_ ?_ h.processed
    ?_ ?_ h.tries h.submits h.counts
  · exact h.requests.create (by rw [Function.comp_apply, hp]; rfl) hnew hs rfl rfl rfl rfl
  · exact (h.finishes_stay hp rfl).of_eq rfl rfl
  · intro b hb
    show b.id < (c.attempts ++ [a]).length
    rw [List.length_append, List.length_singleton]
    rcases List.mem_append.mp hb with hb | hb
    · exact Nat.lt_succ_of_lt (h.ids b hb)
    · rw [List.mem_singleton.mp hb, hid]
      exact Nat.lt_succ_self _
  · intro b hb
    rcases List.mem_append.mp hb with hb | hb
    · exact Or.inl hb
    · rw [List.mem_singleton.mp hb]
      exact Or.inr rfl
  · exact fun b hb => List.mem_append_left _ (h.made b hb)
  · intro b hb
    rw [← Option.some_inj.mp hb]
    exact List.mem_append_right _ (List.mem_singleton_self a)
  · exact fun b hb => List.mem_append_left _ (h.pending b hb)
  · rintro b (hb | hb | hb)
    · exact Or.inl hb
    · rw [hp] at hb
      cases hb
    · exact Or.inr (Or.inr hb)
  · rintro g (hg | hg)
    · cases hg
    · exact Or.inr (Or.inl hg)
  · rw [hp]
    rfl

omit [DecidableEq R] in
theorem mem_emplace {pending : List (Attempt R)} {b : Attempt R} :
    b ∈ emplace pending a ↔ b = a ∨ b ∈ pending := by
  have hsplit : pending.takeWhile (·.deadline ≤ a.deadline) ++
      pending.dropWhile (·.deadline ≤ a.deadline) = pending := List.takeWhile_append_dropWhile
  have hmem : b ∈ pending ↔ b ∈ pending.takeWhile (·.deadline ≤ a.deadline) ∨
      b ∈ pending.dropWhile (·.deadline ≤ a.deadline) := by
    rw [← List.mem_append, hsplit]
  rw [emplace, List.mem_append, List.mem_cons, hmem]
  tauto

/-- The timer gets the entry of an attempt. -/
theorem Inv.arm (h : Inv c pc apps) (hp : pc θ = .arming a) :
    Inv { c with pending := emplace c.pending a } (Function.update pc θ .idle) apps := by
  refine h.act (h.requests_stay hp rfl) (h.finishes_stay hp rfl) h.ids (fun _ => id)
    (fun _ => Or.inl) (fun _ _ => id) h.made nofun ?_ ?_ h.processed ?_ ?_ h.tries h.submits
    h.counts
  · intro b hb
    rcases mem_emplace.mp hb with rfl | hb
    · exact h.threads θ b (by rw [hp]; rfl)
    · exact h.pending b hb
  · rintro b (hb | hb | hb)
    · exact Or.inl (mem_emplace.mpr (Or.inr hb))
    · rw [hp] at hb
      cases hb
      exact Or.inl (mem_emplace.mpr (Or.inl rfl))
    · exact Or.inr (Or.inr hb)
  · rintro g (hg | hg)
    · cases hg
    · exact Or.inr (Or.inl hg)
  · rw [hp]
    rfl

/-- The timer takes its first entry. -/
theorem Inv.pop (h : Inv c pc apps) (hp : pc θ = .idle) {pending : List (Attempt R)}
    (hpending : c.pending = a :: pending) :
    Inv { c with pending := pending } (Function.update pc θ (.popped a)) apps := by
  have hmem : ∀ b, b ∈ c.pending ↔ b = a ∨ b ∈ pending := by
    intro b
    rw [hpending, List.mem_cons]
  refine h.act (h.requests_stay hp rfl) (h.finishes_stay hp rfl) h.ids (fun _ => id)
    (fun _ => Or.inl) (fun _ _ => id) h.made ?_ ?_ ?_ h.processed ?_ ?_ h.tries h.submits h.counts
  · intro b hb
    rw [← Option.some_inj.mp hb]
    exact h.pending a ((hmem a).mpr (Or.inl rfl))
  · exact fun b hb => h.pending b ((hmem b).mpr (Or.inr hb))
  · rintro b (hb | hb | hb)
    · rcases (hmem b).mp hb with rfl | hb
      · exact Or.inr (Or.inl rfl)
      · exact Or.inl hb
    · rw [hp] at hb
      cases hb
    · exact Or.inr (Or.inr hb)
  · rintro g (hg | hg)
    · cases hg
    · exact Or.inr (Or.inl hg)
  · rw [hp]
    rfl

/-- A completion that came second is counted in `zombie`. -/
theorem Inv.zombie (h : Inv c pc apps) (hp : pc θ = .late a) :
    Inv { c with metrics := { c.metrics with zombie := c.metrics.zombie + 1 } }
      (Function.update pc θ .idle) apps := by
  refine h.record hp rfl rfl ⟨rfl, rfl, rfl, rfl⟩ (h.requests_stay hp rfl) (h.finishes_stay hp rfl)
    (fun _ => id) rfl h.tries h.submits h.counts

/-- A request arrives. -/
theorem Inv.arrive (h : Inv c pc apps) (hp : pc θ = .idle) (hr : r ∉ c.arrived) :
    Inv { c with
        arrived := c.arrived ++ [r]
        submits := Function.update c.submits r (c.submits r + 1) }
      (Function.update pc θ (.submitting r)) apps := by
  refine h.record hp rfl rfl ⟨rfl, rfl, rfl, rfl⟩ ?_ (h.finishes_stay hp rfl) (fun _ => id) rfl
    h.tries ?_ h.counts
  · -- the request is with the thread from here on
    exact h.requests.arrive (by rw [Function.comp_apply, hp]; rfl) hr rfl rfl rfl rfl
  · intro r'
    show Function.update c.submits r (c.submits r + 1) r' =
      c.attempt r' + if r' ∈ c.arrived ++ [r] then 1 else 0
    by_cases hr' : r' = r
    · rw [hr', Function.update_self, h.submits, if_neg hr, if_pos (by simp)]
    · rw [Function.update_of_ne hr', h.submits]
      simp [hr']

/-! ### The threads -/

/-- An app changes, with no attempts in its queues that have not been made. -/
theorem Inv.update_app (h : Inv c pc apps) (k : ℕ) {app : App R}
    (hq : ∀ a, a ∈ app.dbq ∨ a ∈ app.fastq → a ∈ c.attempts) :
    Inv c pc (Function.update apps k app) := by
  refine { h with queues := fun k' a ha => ?_ }
  by_cases hk : k' = k
  · rw [hk, Function.update_self] at ha
    exact hq a ha
  · rw [Function.update_of_ne hk] at ha
    exact h.queues k' a ha

/-- An app changes, and its queues stay as they are. -/
theorem Inv.onApp (h : Inv c pc apps) (k : ℕ) {app : App R} (hdbq : app.dbq = (apps k).dbq)
    (hfastq : app.fastq = (apps k).fastq) : Inv c pc (Function.update apps k app) :=
  h.update_app k fun a ha => h.queues k a (by rwa [hdbq, hfastq] at ha)

/-- Another number is counted. -/
theorem Inv.count (h : Inv c pc apps) {metrics : Metrics}
    (hzombie : metrics.zombie = c.metrics.zombie) (hgoodput : metrics.goodput = c.metrics.goodput)
    (hfailed : metrics.failed = c.metrics.failed) :
    Inv { c with metrics := metrics } pc apps := by
  refine { h with late := ?_, counts := ?_ }
  · simp only [hzombie]
    exact h.late
  · show metrics.goodput = c.goods.length ∧ metrics.failed = c.bads.length
    rw [hgoodput, hfailed]
    exact h.counts

variable {s s' : State R K} {key : R → K}

omit [DecidableEq K] in
/-- A thread comes to `settled.exchange(true)`, with the timer's entry if it is the timer. -/
theorem Inv.exchange (h : Inv c s.pc s.apps) (hq : s.pc θ = q) (hholds : q.holds = none)
    (hcalls : q.calls = none) (hlate : q.isLate = false) (hattempt : q.attempt = some a)
    (settler : Settler) (ok : Bool) (hok : ok = true → ∃ t, settler = .complete t ∧ t ≤ a.deadline)
    {l : List (Attempt R)} (hl : ∀ b ∈ l, b = a) (hw : ∀ b, q.watches = some b → b ∈ l)
    (hp : p = .idle ∨ p = .late a) {n : ℕ}
    (hn : n = if (c.settled a).isSome then c.overtaken + p.isLate.toNat else c.overtaken)
    (hc : c' = { c with processed := c.processed ++ l, overtaken := n })
    (hs : s' = ({ s with clients := c' } : State R K).exchange θ a settler ok p) :
    Inv s'.clients s'.pc s'.apps := by
  subst hq hs
  have ha : a ∈ c.attempts := h.threads θ a hattempt
  have hsettled : c'.settled = c.settled := by rw [hc]
  -- the two answers of the exchange: who is first settles the attempt, anybody else only passes
  unfold State.exchange
  split
  · next hnone =>
    rw [hsettled] at hnone
    rw [hnone] at hn
    have hwin := h.exchange_win hholds hcalls hlate ha hnone settler ok hok hl hw
    rw [hc, hn]
    exact hwin
  · next x hsome =>
    rw [hsettled] at hsome
    rw [hsome] at hn
    have hlose := h.exchange_lose hholds hcalls hlate ha (by simp [hsome]) hl hw hp
    rw [hc, hn]
    exact hlose

omit [DecidableEq K] in
/-- A worker takes an item, or returns. -/
theorem Inv.dequeue (h : Inv s.clients s.pc s.apps) {k n : ℕ} {db : Bool}
    (hp : s.pc (.worker k db n) = .idle) (hs : s.dequeue k db n = some s') :
    Inv s'.clients s'.pc s'.apps := by
  unfold State.dequeue at hs
  obtain ⟨-, hs⟩ := Option.ite_none_right_eq_some.mp hs
  split at hs
  -- a worker of a stopped app returns, and touches nothing
  · obtain rfl := Option.some_inj.mp hs
    exact h.goto hp rfl rfl rfl rfl nofun nofun
  · cases db with
    | true =>
      cases hq : (s.apps k).dbq with
      | nil =>
        rw [hq] at hs
        cases hs
      | cons a dbq =>
        rw [hq] at hs
        obtain rfl := Option.some_inj.mp hs
        have hmem : ∀ b, b ∈ a :: dbq ∨ b ∈ (s.apps k).fastq → b ∈ s.clients.attempts :=
          hq ▸ h.queues k
        have ha : a ∈ s.clients.attempts := hmem a (Or.inl List.mem_cons_self)
        refine (h.update_app k fun b hb => ?_).goto hp rfl rfl rfl rfl nofun fun b hb => ?_
        · exact hmem b (hb.imp_left (List.mem_cons_of_mem a))
        · exact Or.inr (Option.some_inj.mp hb ▸ ha)
    | false =>
      cases hq : (s.apps k).fastq with
      | nil =>
        rw [hq] at hs
        cases hs
      | cons a fastq =>
        rw [hq] at hs
        obtain rfl := Option.some_inj.mp hs
        have hmem : ∀ b, b ∈ (s.apps k).dbq ∨ b ∈ a :: fastq → b ∈ s.clients.attempts :=
          hq ▸ h.queues k
        have ha : a ∈ s.clients.attempts := hmem a (Or.inr List.mem_cons_self)
        refine (h.update_app k fun b hb => ?_).goto hp rfl rfl rfl rfl nofun fun b hb => ?_
        · exact hmem b (hb.imp_right (List.mem_cons_of_mem a))
        · exact Or.inr (Option.some_inj.mp hb ▸ ha)

omit [DecidableEq K] in
/-- An attempt comes to the end of a queue, if the app does not stop. -/
theorem Inv.enqueue (h : Inv s.clients s.pc s.apps) (hp : s.pc θ = .enqueuing a) :
    Inv ((s.enqueue a).goto θ (.arming a)).clients ((s.enqueue a).goto θ (.arming a)).pc
      ((s.enqueue a).goto θ (.arming a)).apps := by
  have ha : a ∈ s.clients.attempts := h.threads θ a (by rw [hp]; rfl)
  have hpush : ∀ {q : List (Attempt R)} {b}, b ∈ q ++ [a] → b ∈ q ∨ b = a := by
    intro q b hb
    simpa using hb
  unfold State.enqueue
  split
  · -- the app has stopped: the attempt is in no queue, and only the timer will settle it
    exact h.goto hp rfl rfl rfl rfl nofun fun _ => Or.inl
  · refine Inv.goto (h.update_app a.app fun b hb => ?_) hp rfl rfl rfl rfl nofun fun _ => Or.inl
    split at hb
    · rcases hb with hb | hb
      · exact (hpush hb).elim (fun hb => h.queues _ b (Or.inl hb)) (· ▸ ha)
      · exact h.queues _ b (Or.inr hb)
    · rcases hb with hb | hb
      · exact h.queues _ b (Or.inl hb)
      · exact (hpush hb).elim (fun hb => h.queues _ b (Or.inr hb)) (· ▸ ha)

/-- **A thread goes on**: what all threads keep. -/
theorem Inv.advance (h : Inv s.clients s.pc s.apps) (hg : s.gApp ≠ none)
    (hs : s.advance key θ = some s') : Inv s'.clients s'.pc s'.apps := by
  unfold State.advance at hs
  cases hp : s.pc θ with
  | idle =>
    rw [hp] at hs
    cases θ with
    | arrivals => cases hs
    | timer =>
      replace hs : s.pop = some s' := hs
      unfold State.pop at hs
      split at hs
      · next a pending hpending =>
        obtain ⟨-, hs⟩ := Option.ite_none_right_eq_some.mp hs
        cases hs
        exact h.pop hp hpending
      · cases hs
    | worker k db n => exact h.dequeue hp hs
  | exited =>
    rw [hp] at hs
    cases hs
  | taken a =>
    rw [hp] at hs
    dsimp only at hs
    split at hs
    · obtain rfl := Option.some_inj.mp hs
      exact h.goto hp rfl rfl rfl rfl nofun fun _ => Or.inl
    · obtain rfl := Option.some_inj.mp hs
      refine Inv.goto (h.onApp θ.app ?_ ?_) hp rfl rfl rfl rfl nofun fun _ => Or.inl <;> rfl
  | dropping a =>
    rw [hp] at hs
    cases hs
    refine Inv.goto (h.onApp _ ?_ ?_) hp rfl rfl rfl rfl nofun fun _ => Or.inl <;> rfl
  | dropped a =>
    rw [hp] at hs
    cases hs
    have hcount : Inv (s.count fun m => { m with dropped := m.dropped + 1 }).clients s.pc s.apps :=
      h.count rfl rfl rfl
    refine hcount.exchange (l := []) hp rfl rfl rfl rfl .drop false nofun nofun nofun (Or.inl rfl)
      (ite_self _).symm ?_ rfl
    rw [List.append_nil]
    rfl
  | serving a =>
    rw [hp] at hs
    cases hs
    refine Inv.goto (h.onApp _ ?_ ?_) hp rfl rfl rfl rfl nofun fun _ => Or.inl <;> rfl
  | completing a =>
    rw [hp] at hs
    cases hs
    refine Inv.goto (h.onApp _ ?_ ?_) hp rfl rfl rfl rfl nofun fun _ => Or.inl <;> rfl
  | checking a =>
    rw [hp] at hs
    cases hs
    exact h.goto hp rfl rfl rfl rfl nofun fun _ => Or.inl
  | filling a t =>
    rw [hp] at hs
    cases hs
    exact h.goto hp rfl rfl rfl rfl nofun fun _ => Or.inl
  | completed a t =>
    rw [hp] at hs
    cases hs
    refine h.exchange (l := []) hp rfl rfl rfl rfl (.complete t) _ ?_ nofun nofun (Or.inr rfl)
      rfl ?_ rfl
    · exact fun ht => ⟨t, rfl, of_decide_eq_true ht⟩
    · rw [List.append_nil]
      rfl
  | late a =>
    rw [hp] at hs
    cases hs
    exact h.zombie hp
  | popped a =>
    rw [hp] at hs
    cases hs
    refine h.exchange (l := [a]) hp rfl rfl rfl rfl .timer false nofun ?_ ?_ (Or.inl rfl)
      (ite_self _).symm rfl rfl
    · exact fun b hb => List.mem_singleton.mp hb
    · exact fun b hb => List.mem_singleton.mpr (Option.some_inj.mp hb).symm
  | finishing r ok origin =>
    rw [hp] at hs
    cases hs
    exact h.finish hp
  | scoring r origin =>
    rw [hp] at hs
    cases hs
    exact h.score hp
  | depositing =>
    rw [hp] at hs
    cases hs
    exact h.goto hp rfl rfl rfl rfl nofun nofun
  | deciding r =>
    rw [hp] at hs
    dsimp only at hs
    split at hs
    · next htries =>
      split at hs
      · obtain rfl := Option.some_inj.mp hs
        exact h.retry hp htries
      · obtain rfl := Option.some_inj.mp hs
        exact h.goto hp rfl rfl rfl rfl nofun nofun
    · obtain rfl := Option.some_inj.mp hs
      exact h.goto hp rfl rfl rfl rfl nofun nofun
  | failing r =>
    rw [hp] at hs
    cases hs
    exact h.fail hp
  | submitting r =>
    rw [hp] at hs
    dsimp only at hs
    split at hs
    · -- there is a current app from the start, so that the call is not made on nothing
      next hnone => exact absurd hnone hg
    · obtain rfl := Option.some_inj.mp hs
      exact h.goto hp rfl rfl rfl rfl nofun nofun
  | choosing r k =>
    rw [hp] at hs
    cases hs
    exact h.goto hp rfl rfl rfl rfl nofun nofun
  | limiting r k limit =>
    rw [hp] at hs
    dsimp only at hs
    split at hs
    · obtain rfl := Option.some_inj.mp hs
      exact h.goto hp rfl rfl rfl rfl nofun nofun
    · obtain rfl := Option.some_inj.mp hs
      exact h.goto hp rfl rfl rfl rfl nofun nofun
  | shedding r =>
    rw [hp] at hs
    cases hs
    refine Inv.goto (h.count ?_ ?_ ?_) hp rfl rfl rfl rfl nofun nofun <;> rfl
  | creating r k =>
    rw [hp] at hs
    cases hs
    exact h.create hp rfl
  | joining a =>
    rw [hp] at hs
    cases hs
    refine Inv.goto (h.onApp _ ?_ ?_) hp rfl rfl rfl rfl nofun fun _ => Or.inl <;> rfl
  | enqueuing a =>
    rw [hp] at hs
    cases hs
    exact h.enqueue hp
  | arming a =>
    rw [hp] at hs
    cases hs
    exact h.arm hp

omit [DecidableEq K] in
theorem Inv.init : Inv (State.init : State R K).clients (State.init : State R K).pc
    (State.init : State R K).apps where
  requests := by
    refine ⟨fun _ => .spot .fresh, ?_, ?_, ?_, List.nodup_nil, ?_⟩
    · exact fun θ r => iff_of_false nofun nofun
    · exact fun r a => iff_of_false nofun fun h => List.not_mem_nil h.1
    · exact fun r => iff_of_false nofun List.not_mem_nil
    · exact fun r => iff_of_true rfl List.not_mem_nil
  finishes := by
    refine ⟨fun _ => .spot .unsettled, ?_, ?_, ?_, List.nodup_nil⟩
    · exact fun θ a => iff_of_false nofun nofun
    · exact fun a => iff_of_true rfl rfl
    · exact fun a => iff_of_false nofun List.not_mem_nil
  ids := nofun
  made a h := absurd rfl h
  threads := nofun
  pending := nofun
  queues := nofun
  watched := nofun
  processed := nofun
  good g h := by
    rcases h with ⟨θ, h⟩ | h
    · cases h
    · cases h
  late := ⟨[], Listed.nil nofun, rfl⟩
  tries _ := by
    show 0 < maxAttempts
    decide
  submits r := by simp [State.init]
  counts := ⟨rfl, rfl⟩

/-! ### What the clients' side is for -/

/-- Each attempt is settled once, and each request is counted once. -/
structure SettlesOnce (s : State R K) : Prop where
  current : s.gApp ≠ none
  /-- `finish_attempt` runs at most once for an attempt. -/
  finished : s.clients.finished.Nodup
  calls : ∀ a θ, (s.pc θ).calls = some a →
    a ∉ s.clients.finished ∧ ∀ θ', (s.pc θ').calls = some a → θ' = θ
  /-- It has been called once the timer has processed the entry. -/
  processed : ∀ a ∈ s.clients.processed,
    a ∈ s.clients.finished ∨ ∃ θ, (s.pc θ).calls = some a
  unsettled : ∀ a ∈ s.clients.attempts, ∀ b ∈ s.clients.attempts, s.clients.settled a = none →
    s.clients.settled b = none → a.req = b.req → a = b
  submits : ∀ r, s.clients.submits r ≤ maxAttempts
  /-- No request is counted twice, or while somebody can still count it. -/
  counted : s.clients.counted.Nodup
  counted_only : ∀ r ∈ s.clients.counted, r ∈ s.clients.arrived ∧
    (∀ θ, (s.pc θ).holds ≠ some r) ∧
      ∀ a ∈ s.clients.attempts, a.req = r → s.clients.settled a ≠ none
  /-- No request is lost. -/
  counted_all : ∀ r ∈ s.clients.arrived, (∀ θ, (s.pc θ).holds ≠ some r) →
    (∀ a ∈ s.clients.attempts, a.req = r → a ∈ s.clients.processed) → r ∈ s.clients.counted
  counts : s.clients.metrics.goodput = s.clients.goods.length ∧
    s.clients.metrics.failed = s.clients.bads.length
  good : ∀ g ∈ s.clients.goods, Good s.clients g
  /-- Each completion that came second is in `zombie`, or will be. -/
  zombie : ∃ xs : List Thread, xs.Nodup ∧ (∀ θ, θ ∈ xs ↔ (s.pc θ).isLate = true) ∧
    s.clients.metrics.zombie + xs.length = s.clients.overtaken

omit [DecidableEq K] in
theorem Inv.settlesOnce (h : Inv s.clients s.pc s.apps) (hg : s.gApp ≠ none) :
    SettlesOnce s := by
  obtain ⟨place, hplaced, hat, hcount, hnodup, hfresh⟩ := h.requests
  obtain ⟨stage, hstaged, hopen, hdone, hfinished⟩ := h.finishes
  obtain ⟨xs, hxs, hzombie⟩ := h.late
  refine ⟨hg, hfinished, ?_, ?_, ?_, ?_, hnodup, ?_, ?_, h.counts, fun g hg => h.good g (Or.inr hg),
    xs, hxs.nodup, hxs.mem, hzombie⟩
  · intro a θ ha
    refine ⟨fun hmem => hstaged.not_held ((hdone a).mpr hmem) θ ha, fun θ' ha' => ?_⟩
    exact hstaged.unique ha' ha
  · intro a ha
    have hs := h.processed a ha
    cases hstage : stage a with
    | hand θ => exact Or.inr ⟨θ, (hstaged θ a).mpr hstage⟩
    | spot x =>
      cases x with
      | unsettled => exact absurd ((hopen a).mp hstage) hs
      | finished => exact Or.inl ((hdone a).mp hstage)
  · -- both attempts would be the place of the one request
    intro a ha b hb hsa hsb hreq
    have hpa := (hat a.req a).mpr ⟨ha, hsa, rfl⟩
    have hpb := (hat a.req b).mpr ⟨hb, hsb, hreq.symm⟩
    rw [hpa] at hpb
    simpa using hpb
  · intro r
    have htries := h.tries r
    rw [h.submits r]
    split <;> omega
  · intro r hr
    have hp := (hcount r).mpr hr
    refine ⟨?_, hplaced.not_held hp, fun a ha hreq hs => ?_⟩
    · by_contra hnot
      rw [(hfresh r).mpr hnot] at hp
      cases hp
    · rw [(hat r a).mpr ⟨ha, hs, hreq⟩] at hp
      cases hp
  · -- the request is nowhere else: no thread has it, and each of its attempts is settled
    intro r hr hhold hall
    rw [← hcount]
    cases hp : place r with
    | hand θ => exact absurd ((hplaced θ r).mpr hp) (hhold θ)
    | spot x =>
      cases x with
      | fresh => exact absurd hr ((hfresh r).mp hp)
      | counted => rfl
      | attempt a =>
        obtain ⟨ha, hs, hreq⟩ := (hat r a).mp hp
        exact absurd hs (h.processed a (hall a ha hreq))

end Client
end Metastable
end SepLab
