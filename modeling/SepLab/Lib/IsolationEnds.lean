import Mathlib.Algebra.Order.BigOperators.Group.Finset
import SepLab.Lib.Isolation
import SepLab.Lib.LockOrder

/-!
# Requests end

Requests that read, decide and write wait for each other's locks only.  Those that lock what they
read do so in the order of the keys, and the others hold no lock when they wait, so that there is
no deadlock; and each statement brings its request nearer to its end, a retry being one of few.

## Main definitions

* `Db.Wants` — the lock that a request waits for, if another one has it.
* `Phase.left`, `Db.left` — the statements that a request has before it at most.

## Main results

* `Inv.exists_next` — **one of the requests goes on, until all have ended.**
* `length_le_of_exec` — no run is longer than that.
* `ends` — both together: **requests end.**
-/

namespace SepLab
namespace Isolation

open Relation

variable {ι K V : Type}

/-- The request is over. -/
def Phase.Ended : Phase K V → Prop
  | .committed | .declined | .gaveUp | .raised => True
  | _ => False

/-- The statements left in this attempt, with the one that follows a failure. -/
def Phase.left (n : ℕ) : Phase K V → ℕ
  | .idle => n + 6
  | .locking values => n + 5 - values.length
  | .decided _ => 3
  | .failed => 2
  | .wrote _ _ => 1
  | _ => 0

namespace Db

/-- The statements that a request has before it at most. -/
def left (maxRetries : ℕ) (req : ι → Request K V) (s : Db ι K V) (i : ι) : ℕ :=
  (maxRetries - s.attempt i) * ((req i).reads.length + 7) +
    (s.phase i).left (req i).reads.length

/-- The next statement of request `i` locks row `k`, which it has not locked yet. -/
def Wants (mode : Mode) (req : ι → Request K V) (s : Db ι K V) (i : ι) (k : K) : Prop :=
  s.lock k ≠ some i ∧
    match s.phase i with
    | .idle => mode = .statement ∧ ∃ v, (req i).write ((req i).reads.map s.rows) = some (k, v)
    | .locking values => (req i).reads[values.length]? = some k
    | .decided (some w) => w.1 = k
    | _ => False

/-- Request `i` waits for a row that request `j` has locked. -/
def WaitsFor (mode : Mode) (req : ι → Request K V) (s : Db ι K V) : ι → ι → Prop :=
  Waits s.lock (s.Wants mode req)

end Db

variable [DecidableEq K] {mode : Mode} {maxRetries : ℕ} {req : ι → Request K V} {start : K → V}
  {s s' : Db ι K V} {i j : ι}

/-- The rows are locked in the order of their keys, and include the one to be written. -/
def Ordered [Preorder K] (r : Request K V) : Prop :=
  r.reads.Pairwise (· < ·) ∧ ∀ values k v, r.write values = some (k, v) → k ∈ r.reads

/-- **There is no deadlock.** -/
theorem Inv.not_waits_cycle [Preorder K] (h : Inv mode req start s)
    (hord : mode = .forUpdate → ∀ i, Ordered (req i)) (i : ι) :
    ¬ TransGen (s.WaitsFor mode req) i i := by
  refine not_waits_cycle_of_lt (fun j x y hx hwants hne => ?_) i
  obtain ⟨hy, hwants⟩ := hwants
  have hheld := h.lock x j hx
  have hsound := h.sound j
  cases hj : s.phase j with
  | locking values =>
    rw [hj] at hheld hsound hwants
    obtain ⟨hmode, -⟩ := hsound
    -- the rows that are locked are those before the next one
    obtain ⟨l, hl⟩ := List.mem_iff_getElem?.mp hheld
    rw [List.getElem?_take] at hl
    split at hl
    · next hlt =>
      obtain ⟨hl', rfl⟩ := List.getElem?_eq_some_iff.mp hl
      obtain ⟨hn', rfl⟩ := List.getElem?_eq_some_iff.mp hwants
      exact List.pairwise_iff_getElem.mp (hord hmode j).1 _ _ hl' hn' hlt
    · cases hl
  | decided w =>
    rw [hj] at hheld hsound hwants
    obtain ⟨-, hwrite, hguard⟩ := hsound
    cases w with
    | none => exact hwants.elim
    | some w =>
      obtain ⟨k, v⟩ := w
      obtain rfl : k = y := hwants
      exact absurd (hguard hheld k ((hord hheld j).2 _ k v hwrite)).1 hy
  | idle =>
    rw [hj] at hheld
    exact hheld.elim
  | wrote k v =>
    rw [hj] at hwants
    exact hwants.elim
  | committed =>
    rw [hj] at hwants
    exact hwants.elim
  | declined =>
    rw [hj] at hwants
    exact hwants.elim
  | failed =>
    rw [hj] at hwants
    exact hwants.elim
  | gaveUp =>
    rw [hj] at hwants
    exact hwants.elim
  | raised =>
    rw [hj] at hwants
    exact hwants.elim

variable [DecidableEq ι]

omit [DecidableEq K] in
theorem free_of_not_waits {k : K} (hw : ∀ j, ¬ s.WaitsFor mode req i j)
    (hwants : s.lock k ≠ some i → s.Wants mode req i k) : s.free i k = true := by
  refine Db.free_iff.mpr fun j hj => ?_
  by_contra hne
  refine hw j ⟨k, hwants fun hi => hne ?_, hj, Ne.symm hne⟩
  exact (Option.some_inj.mp (hj.symm.trans hi))

/-- **A request that waits for nobody goes on**, unless it has ended. -/
theorem exists_next_of_not_waits (hi : ¬ (s.phase i).Ended)
    (hw : ∀ j, ¬ s.WaitsFor mode req i j) :
    ∃ s', Db.step mode maxRetries req s (.next i) = some s' := by
  simp only [Db.step, Db.next]
  -- each phase asks for one lock at most, and that one is free
  cases hp : s.phase i with
  | idle =>
    cases mode with
    | statement =>
      dsimp only
      split
      · exact ⟨_, rfl⟩
      · next k v hwrite =>
        refine ⟨_, if_pos (free_of_not_waits hw fun hne => ⟨hne, ?_⟩)⟩
        rw [hp]
        exact ⟨rfl, v, hwrite⟩
    | _ => exact ⟨_, rfl⟩
  | locking values =>
    dsimp only
    split
    · next k hk =>
      refine ⟨_, if_pos (free_of_not_waits hw fun hne => ⟨hne, ?_⟩)⟩
      rw [hp]
      exact hk
    · exact ⟨_, rfl⟩
  | decided w =>
    cases w with
    | none => exact ⟨_, rfl⟩
    | some w =>
      obtain ⟨k, v⟩ := w
      dsimp only
      rw [if_pos (free_of_not_waits hw fun hne => ⟨hne, by rw [hp]⟩)]
      split <;> exact ⟨_, rfl⟩
  | wrote k v => exact ⟨_, rfl⟩
  | failed =>
    dsimp only
    split <;> exact ⟨_, rfl⟩
  | committed => exact absurd (by rw [hp]; trivial) hi
  | declined => exact absurd (by rw [hp]; trivial) hi
  | gaveUp => exact absurd (by rw [hp]; trivial) hi
  | raised => exact absurd (by rw [hp]; trivial) hi

omit [DecidableEq ι] in
/-- Who has a lock has not ended. -/
theorem Inv.not_ended_of_lock (h : Inv mode req start s) {k : K} (hk : s.lock k = some i) :
    ¬ (s.phase i).Ended := by
  have hheld := h.lock k i hk
  cases hp : s.phase i <;> rw [hp] at hheld <;> first | exact hheld.elim | exact id

/-- **One of the requests goes on, until all have ended.** -/
theorem Inv.exists_next [Preorder K] [Finite ι] (h : Inv mode req start s) (maxRetries : ℕ)
    (hord : mode = .forUpdate → ∀ i, Ordered (req i)) (hs : ∃ i, ¬ (s.phase i).Ended) :
    ∃ i s', Db.step mode maxRetries req s (.next i) = some s' := by
  obtain ⟨i, hi, hw⟩ := exists_not_waits (S := {i | ¬ (s.phase i).Ended})
    (h.not_waits_cycle hord) (Set.toFinite _) hs
  refine ⟨i, exists_next_of_not_waits hi fun j hj => ?_⟩
  obtain ⟨k, -, hk, -⟩ := id hj
  exact hw j (h.not_ended_of_lock hk) hj

/-! ### The number of statements -/

/-- The request whose statement or failure it is. -/
def Action.request : Action ι → ι
  | .next i | .fail i => i

omit [DecidableEq K] in
/-- A request has come nearer to its end, and the others are where they were. -/
theorem left_of_phase {p : Phase K V} (hphase : s'.phase = Function.update s.phase i p)
    (hattempt : s'.attempt = s.attempt)
    (hp : p.left (req i).reads.length < (s.phase i).left (req i).reads.length) :
    s'.left maxRetries req i < s.left maxRetries req i ∧
      ∀ j, j ≠ i → s'.left maxRetries req j = s.left maxRetries req j := by
  constructor
  · rw [Db.left, Db.left, hphase, hattempt, Function.update_self]
    exact Nat.add_lt_add_left hp _
  · intro j hj
    rw [Db.left, Db.left, hphase, hattempt, Function.update_of_ne hj]

omit [DecidableEq ι] in
/-- A request reads no more than its rows. -/
theorem Inv.length_values (h : Inv mode req start s) {values : List V}
    (hi : s.phase i = .locking values) : values.length ≤ (req i).reads.length := by
  have hsound := h.sound i
  rw [hi] at hsound
  have hlength := congrArg List.length hsound.2.1
  rw [List.length_map, List.length_take] at hlength
  omega

/-- **Each statement brings its request nearer to its end.** -/
theorem Inv.left_next (h : Inv mode req start s)
    (hs : s.next mode maxRetries (req i) i = some s') :
    s'.left maxRetries req i < s.left maxRetries req i ∧
      ∀ j, j ≠ i → s'.left maxRetries req j = s.left maxRetries req j := by
  unfold Db.next at hs
  cases hi : s.phase i with
  | idle =>
    simp only [hi] at hs
    cases mode with
    | readCommitted =>
      obtain rfl := Option.some_inj.mp hs
      exact left_of_phase rfl rfl (by simp only [hi, Phase.left]; omega)
    | repeatableRead =>
      obtain rfl := Option.some_inj.mp hs
      exact left_of_phase rfl rfl (by simp only [hi, Phase.left]; omega)
    | forUpdate =>
      obtain rfl := Option.some_inj.mp hs
      exact left_of_phase rfl rfl (by simp only [hi, Phase.left, List.length_nil]; omega)
    | statement =>
      dsimp only at hs
      split at hs
      · obtain rfl := Option.some_inj.mp hs
        exact left_of_phase rfl rfl (by simp only [hi, Phase.left]; omega)
      · obtain ⟨-, hs⟩ := Option.ite_none_right_eq_some.mp hs
        obtain rfl := Option.some_inj.mp hs
        exact left_of_phase rfl rfl (by simp only [hi, Phase.left]; omega)
  | locking values =>
    have hlength := h.length_values hi
    simp only [hi] at hs
    split at hs
    · next k hk =>
      have hlt := (List.getElem?_eq_some_iff.mp hk).1
      obtain ⟨-, hs⟩ := Option.ite_none_right_eq_some.mp hs
      obtain rfl := Option.some_inj.mp hs
      refine left_of_phase rfl rfl ?_
      simp only [hi, Phase.left, List.length_append, List.length_singleton]
      omega
    · obtain rfl := Option.some_inj.mp hs
      exact left_of_phase rfl rfl (by simp only [hi, Phase.left]; omega)
  | decided w =>
    cases w with
    | none =>
      simp only [hi] at hs
      obtain rfl := Option.some_inj.mp hs
      exact left_of_phase rfl rfl (by simp only [hi, Phase.left]; omega)
    | some w =>
      obtain ⟨k, v⟩ := w
      simp only [hi] at hs
      obtain ⟨-, hs⟩ := Option.ite_none_right_eq_some.mp hs
      split at hs <;> obtain rfl := Option.some_inj.mp hs
      · exact left_of_phase rfl rfl (by simp only [hi, Phase.left]; omega)
      · exact left_of_phase rfl rfl (by simp only [hi, Phase.left]; omega)
  | wrote k v =>
    simp only [hi] at hs
    obtain rfl := Option.some_inj.mp hs
    exact left_of_phase rfl rfl (by simp only [hi, Phase.left]; omega)
  | failed =>
    simp only [hi] at hs
    split at hs
    · next hlt =>
      obtain rfl := Option.some_inj.mp hs
      constructor
      · -- one retry less
        show (maxRetries - Function.update s.attempt i (s.attempt i + 1) i) * _ +
          (Function.update s.phase i .idle i).left _ < _
        rw [Function.update_self, Function.update_self, Db.left, hi]
        have hsub : maxRetries - s.attempt i = maxRetries - (s.attempt i + 1) + 1 := by omega
        rw [hsub, Nat.add_mul]
        simp only [Phase.left]
        omega
      · intro j hj
        show (maxRetries - Function.update s.attempt i (s.attempt i + 1) j) * _ +
          (Function.update s.phase i .idle j).left _ = _
        rw [Function.update_of_ne hj, Function.update_of_ne hj]
        rfl
    · obtain rfl := Option.some_inj.mp hs
      exact left_of_phase rfl rfl (by simp only [hi, Phase.left]; omega)
  | _ =>
    simp only [hi] at hs
    cases hs

theorem Inv.left_step (h : Inv mode req start s) {a : Action ι}
    (hs : Db.step mode maxRetries req s a = some s') :
    s'.left maxRetries req a.request < s.left maxRetries req a.request ∧
      ∀ j, j ≠ a.request → s'.left maxRetries req j = s.left maxRetries req j := by
  cases a with
  | next i => exact h.left_next hs
  | fail i =>
    show s'.left maxRetries req i < s.left maxRetries req i ∧
      ∀ j, j ≠ i → s'.left maxRetries req j = s.left maxRetries req j
    simp only [Db.step, Db.fail] at hs
    split at hs
    -- a failure costs what was left of this try
    · next values hi =>
      have hlength := h.length_values hi
      obtain rfl := Option.some_inj.mp hs
      exact left_of_phase rfl rfl (by simp only [hi, Phase.left]; omega)
    · next hi =>
      obtain rfl := Option.some_inj.mp hs
      exact left_of_phase rfl rfl (by simp only [hi, Phase.left]; omega)
    · next hi =>
      obtain rfl := Option.some_inj.mp hs
      exact left_of_phase rfl rfl (by simp only [hi, Phase.left]; omega)
    · cases hs

/-- All requests together have fewer statements before them. -/
theorem Inv.sum_left_lt [Fintype ι] (h : Inv mode req start s) {a : Action ι}
    (hs : Db.step mode maxRetries req s a = some s') :
    ∑ i, s'.left maxRetries req i < ∑ i, s.left maxRetries req i := by
  obtain ⟨hlt, hother⟩ := h.left_step hs
  refine Finset.sum_lt_sum (fun j _ => ?_) ⟨a.request, Finset.mem_univ _, hlt⟩
  by_cases hj : j = a.request
  · rw [hj]
    exact hlt.le
  · exact (hother j hj).le

/-- **No run is longer than the statements of its requests.** -/
theorem length_le_of_exec [Fintype ι] (as : List (Action ι))
    (h : exec (Db.step mode maxRetries req) (Db.init start) as = some s) :
    as.length + ∑ i, s.left maxRetries req i ≤
      ∑ i, (maxRetries * ((req i).reads.length + 7) + ((req i).reads.length + 6)) := by
  induction as using List.reverseRecOn generalizing s with
  | nil =>
    rw [exec_nil, Option.some_inj] at h
    subst h
    rw [List.length_nil, Nat.zero_add]
    exact le_rfl
  | append_singleton as a ih =>
    rw [exec_concat, Option.bind_eq_some_iff] at h
    obtain ⟨s₀, h, hs⟩ := h
    have hlt := (Inv.of_reach (.of_exec as h)).sum_left_lt hs
    have hle := ih h
    rw [List.length_append, List.length_singleton]
    omega

/-- **All requests can end**, with no other failure. -/
theorem Inv.exists_ended [Preorder K] [Fintype ι] (h : Inv mode req start s)
    (hord : mode = .forUpdate → ∀ i, Ordered (req i)) :
    ∃ as s', exec (Db.step mode maxRetries req) s as = some s' ∧
      (∀ a ∈ as, ∃ i, a = .next i) ∧ ∀ i, (s'.phase i).Ended := by
  induction hn : ∑ i, s.left maxRetries req i using Nat.strong_induction_on generalizing s with
  | _ n ih =>
    by_cases hall : ∀ i, (s.phase i).Ended
    · exact ⟨[], s, rfl, nofun, hall⟩
    · obtain ⟨i, s₁, hs₁⟩ := h.exists_next maxRetries hord (not_forall.mp hall)
      obtain ⟨as, s', hs', has, hended⟩ := ih _ (hn ▸ h.sum_left_lt hs₁) (h.step hs₁) rfl
      refine ⟨.next i :: as, s', ?_, fun a ha => ?_, hended⟩
      · rw [exec_cons, hs₁]
        exact hs'
      · rcases List.mem_cons.mp ha with rfl | ha
        · exact ⟨i, rfl⟩
        · exact has a ha

/-- **Requests end.**  A run has no more statements than the attempts of its requests allow; as
long as one of them has not ended, one can go on; and all can end. -/
theorem ends [Preorder K] [Fintype ι] (hord : mode = .forUpdate → ∀ i, Ordered (req i))
    (as : List (Action ι))
    (h : exec (Db.step mode maxRetries req) (Db.init start) as = some s) :
    as.length ≤ ∑ i, (maxRetries * ((req i).reads.length + 7) + ((req i).reads.length + 6)) ∧
    ((∀ i, (s.phase i).Ended) ∨ ∃ i s', Db.step mode maxRetries req s (.next i) = some s') ∧
    ∃ as' s', exec (Db.step mode maxRetries req) s as' = some s' ∧
      (∀ a ∈ as', ∃ i, a = .next i) ∧ ∀ i, (s'.phase i).Ended := by
  have hinv := Inv.of_reach (.of_exec as h)
  refine ⟨(Nat.le_add_right _ _).trans (length_le_of_exec as h), ?_, hinv.exists_ended hord⟩
  by_cases hall : ∀ i, (s.phase i).Ended
  · exact Or.inl hall
  · exact Or.inr (hinv.exists_next maxRetries hord (not_forall.mp hall))

end Isolation
end SepLab
