import SepLab.Outbox.HighWaterMark

/-!
# A charge and its outbox row commit together

A round of `writer` inserts a charge and its outbox row in one transaction, so
that there is no charge without an event and no event without a charge, wherever
a transaction fails.  What a row is about never changes after its `INSERT`: it has
a name, the run and the charge that it was inserted with, and the deliveries of a
row carry its run.

## Main definitions

* `State.Named s f` — row `k` is named `f k`, and so are its deliveries.

## Main results

* `State.Named.step` — every statement keeps the names.
* `writer_atomic` — **every committed charge has one committed row, and every committed row
  a committed charge.**
-/

namespace SepLab
namespace Outbox

variable {R ι : Type}

/-- The charge of a writer that has inserted its outbox row. -/
def Phase.recorded? : Phase R → Option (Charge R)
  | .recorded c | .stamped c => some c
  | _ => none

/-- The charge of a writer that has not inserted its outbox row yet. -/
def Phase.charged? : Phase R → Option (Charge R)
  | .charged c => some c
  | _ => none

/-- The rows that a pass has read and not delivered, with their runs. -/
def Phase.reads : Phase R → List (ℕ × R)
  | .publishing todo _ | .sending _ todo _ => todo
  | _ => []

/-- The deliveries that a pass has inserted, committed or not. -/
def Phase.inserted : Phase R → List (Delivery R)
  | .publishing _ sent => sent
  | .sending d _ sent => d :: sent
  | _ => []

namespace State

/-- What row `k` is about: the run and the charge that it was inserted with. -/
def NamedRow (s : State ι R) (k : ℕ) (name : R × ℕ) : Prop :=
  (∀ row, (s.outbox k).committed = some row → (row.runId, row.aggregateId) = name) ∧
    ∀ i row, (s.outbox k).pending = some (i, some row) → (row.runId, row.aggregateId) = name

/-- Row `k` has been inserted, and is of the run. -/
def OfRun (f : ℕ → R × ℕ) (s : State ι R) (k : ℕ) (runId : R) : Prop :=
  k < s.nextOutbox ∧ (f k).1 = runId

/-- Row `k` has the name `f k`; the names are those of charges, each used once. -/
structure Named (txn : ι → Txn R) (f : ℕ → R × ℕ) (s : State ι R) : Prop where
  rows : ∀ k, s.NamedRow k (f k)
  used : ∀ k, k < s.nextOutbox → (f k).2 < s.nextCharge
  inj : ∀ k m, 0 < k → 0 < m → k < s.nextOutbox → m < s.nextOutbox → (f k).2 = (f m).2 → k = m
  /-- A charge without a row has an id of its own. -/
  charged : ∀ i c, (s.phase i).charged? = some c → c.id < s.nextCharge ∧
    (∀ k, 0 < k → k < s.nextOutbox → (f k).2 ≠ c.id) ∧
    (∀ j d, (s.phase j).charged? = some d → d.id = c.id → i = j) ∧
    ∃ amount, txn i = .writer c.runId amount
  recorded : ∀ i c, (s.phase i).recorded? = some c → ∃ k row, 0 < k ∧ k < s.nextOutbox ∧
    f k = (c.runId, c.id) ∧ (s.outbox k).pending = some (i, some row)
  uncommitted : ∀ k i row, (s.outbox k).pending = some (i, some row) →
    (s.outbox k).committed = none → ∃ c, (s.phase i).recorded? = some c ∧ f k = (c.runId, c.id)
  charges : ∀ i c, (i, c) ∈ s.charges → ∃ k, 0 < k ∧ (s.outbox k).committed ≠ none ∧
    f k = (c.runId, c.id)
  committed : ∀ k, (s.outbox k).committed ≠ none → ∃ i c, (i, c) ∈ s.charges ∧
    f k = (c.runId, c.id)
  reads : ∀ i relay, txn i = .pass relay → ∀ x ∈ (s.phase i).reads, s.OfRun f x.1 x.2 ∧
    ∀ runId, relay.runId = some runId → x.2 = runId
  inserted : ∀ i, ∀ d ∈ (s.phase i).inserted, s.OfRun f d.outboxId d.runId
  delivered : ∀ i d, (i, d) ∈ s.delivered → s.OfRun f d.outboxId d.runId

variable {txn : ι → Txn R} {f : ℕ → R × ℕ} {s s' : State ι R}

theorem Named.init (r : R) : (init : State ι R).Named txn fun _ => (r, 0) where
  rows k := by
    constructor
    · intro row hc
      cases hc
    · intro i row hp
      cases hp
  used k hk := Nat.one_pos
  inj k m hk hm hk' hm' := by
    have hk₁ : k < 1 := hk'
    omega
  charged i c hc := by cases hc
  recorded i c hc := by cases hc
  uncommitted k i row hp := by cases hp
  charges i c hc := by cases hc
  committed k hk := absurd rfl hk
  reads i relay _ x hx := by cases hx
  inserted i d hd := by cases hd
  delivered i d hd := by cases hd

variable [DecidableEq ι]

/-- **A transaction goes on** in phase `p` without writing `t6_outbox`. -/
theorem Named.enter (h : s.Named txn f) {i : ι} {p : Phase R}
    (hphase : s'.phase = Function.update s.phase i p) (hout : s'.outbox = s.outbox)
    (hnext : s'.nextOutbox = s.nextOutbox) (hcharge : s.nextCharge ≤ s'.nextCharge)
    (hcharges : s'.charges = s.charges) (hdel : s'.delivered = s.delivered)
    (hcharged : ∀ c, p.charged? = some c → c.id < s'.nextCharge ∧
      (∀ k, 0 < k → k < s.nextOutbox → (f k).2 ≠ c.id) ∧
      (∀ j d, j ≠ i → (s.phase j).charged? = some d → d.id ≠ c.id) ∧
      ∃ amount, txn i = .writer c.runId amount)
    (hrecorded : p.recorded? = (s.phase i).recorded?)
    (hreads : ∀ relay, txn i = .pass relay → ∀ x ∈ p.reads, s.OfRun f x.1 x.2 ∧
      ∀ runId, relay.runId = some runId → x.2 = runId)
    (hinserted : ∀ d ∈ p.inserted, s.OfRun f d.outboxId d.runId) : s'.Named txn f := by
  have hrun : ∀ {k : ℕ} {r : R}, s.OfRun f k r → s'.OfRun f k r :=
    fun hk => ⟨hnext ▸ hk.1, hk.2⟩
  have hother : ∀ {j}, j ≠ i → s'.phase j = s.phase j := by
    intro j hj
    rw [hphase, Function.update_of_ne hj]
  have hself : s'.phase i = p := by rw [hphase, Function.update_self]
  have hrec : ∀ j, (s'.phase j).recorded? = (s.phase j).recorded? := by
    intro j
    by_cases hj : j = i
    · rw [hj, hself, hrecorded]
    · rw [hother hj]
  refine
    { rows := ?_, used := ?_, inj := ?_, charged := ?_, recorded := ?_, uncommitted := ?_
      charges := ?_, committed := ?_, reads := ?_, inserted := ?_, delivered := ?_ }
  · intro k
    unfold NamedRow
    rw [hout]
    exact h.rows k
  · intro k hk
    rw [hnext] at hk
    exact (h.used k hk).trans_le hcharge
  · rw [hnext]
    exact h.inj
  · rw [hnext]
    intro j c hc
    by_cases hj : j = i
    · subst hj
      rw [hself] at hc
      obtain ⟨hlt, hfree, hone, hwriter⟩ := hcharged c hc
      refine ⟨hlt, hfree, fun m d hd heq => ?_, hwriter⟩
      by_contra hne
      rw [hother fun hc => hne hc.symm] at hd
      exact hone m d (fun hc => hne hc.symm) hd heq
    · rw [hother hj] at hc
      obtain ⟨hlt, hfree, hone, hwriter⟩ := h.charged j c hc
      refine ⟨hlt.trans_le hcharge, hfree, fun m d hd heq => ?_, hwriter⟩
      by_cases hm : m = i
      · subst hm
        rw [hself] at hd
        exact absurd heq.symm ((hcharged d hd).2.2.1 j c hj hc)
      · rw [hother hm] at hd
        exact hone m d hd heq
  · intro j c hc
    rw [hrec] at hc
    rw [hnext, hout]
    exact h.recorded j c hc
  · intro k j row hp hc
    rw [hout] at hp hc
    rw [hrec]
    exact h.uncommitted k j row hp hc
  · rw [hcharges, hout]
    exact h.charges
  · rw [hcharges, hout]
    exact h.committed
  · intro j relay hrelay x hx
    by_cases hj : j = i
    · subst hj
      rw [hself] at hx
      exact (hreads relay hrelay x hx).imp_left hrun
    · rw [hother hj] at hx
      exact (h.reads j relay hrelay x hx).imp_left hrun
  · intro j d hd
    by_cases hj : j = i
    · subst hj
      rw [hself] at hd
      exact hrun (hinserted d hd)
    · rw [hother hj] at hd
      exact hrun (h.inserted j d hd)
  · intro j d hd
    rw [hdel] at hd
    exact hrun (h.delivered j d hd)

/-- A writer inserts its outbox row, which is named after its charge. -/
theorem Named.insertOutbox (h : s.Named txn f) (hinv : s.Inv) (hids : s.IdsFromOne) {i : ι}
    {c : Charge R} {runId : R} {amount : ℤ} (htxn : txn i = .writer runId amount)
    (hphase : s.phase i = .charged c) :
    ({ s with
      outbox := s.outbox.put s.nextOutbox i (some ⟨runId, c.id, none, none, none⟩)
      nextOutbox := s.nextOutbox + 1 }.enter i (.recorded c)).Named txn
        (Function.update f s.nextOutbox (c.runId, c.id)) := by
  obtain ⟨hlt, hfree, hone, amount', hwriter⟩ := h.charged i c (by rw [hphase]; rfl)
  rw [htxn] at hwriter
  obtain rfl : runId = c.runId := by injection hwriter
  have hempty := hinv.fresh (Nat.le_refl s.nextOutbox)
  have hname : ∀ {k}, k ≠ s.nextOutbox →
      Function.update f s.nextOutbox (c.runId, c.id) k = f k :=
    fun hk => Function.update_of_ne hk _ _
  -- the new row is pending, so what is committed stays as it is
  have hcom : ∀ k, (s.outbox.put s.nextOutbox i
      (some ⟨c.runId, c.id, none, none, none⟩) k).committed = (s.outbox k).committed :=
    fun k => Table.committed_put k _
  have hne : ∀ {k}, (s.outbox k).committed ≠ none → k ≠ s.nextOutbox := by
    rintro k hk rfl
    rw [hempty] at hk
    exact hk rfl
  -- the transaction held no named row before, so every other one keeps its own
  have hother : ∀ {j}, j ≠ i →
      Function.update s.phase i (.recorded c) j = s.phase j :=
    fun hj => Function.update_of_ne hj _ _
  have hrun : ∀ {k : ℕ} {r : R}, s.OfRun f k r →
      k < s.nextOutbox + 1 ∧ (Function.update f s.nextOutbox (c.runId, c.id) k).1 = r :=
    fun hk => ⟨Nat.lt_succ_of_lt hk.1, by rw [hname hk.1.ne, hk.2]⟩
  refine
    { rows := ?_, used := ?_, inj := ?_, charged := ?_, recorded := ?_, uncommitted := ?_
      charges := ?_, committed := ?_, reads := ?_, inserted := ?_, delivered := ?_ }
  · intro k
    -- the key is the new row's, or an older one that keeps its name
    by_cases hk : k = s.nextOutbox
    · subst hk
      rw [Function.update_self]
      refine ⟨fun row hc => ?_, fun j row hp => ?_⟩
      · replace hc : (s.outbox.put s.nextOutbox i _ s.nextOutbox).committed = some row := hc
        rw [hcom, hempty] at hc
        cases hc
      · replace hp : (s.outbox.put s.nextOutbox i _ s.nextOutbox).pending = some (j, some row) := hp
        rw [Table.put_self, Row.pending_put, Option.some_inj, Prod.mk.injEq] at hp
        rw [← Option.some_inj.mp hp.2]
    · rw [hname hk]
      have hrow : s.outbox.put s.nextOutbox i (some ⟨c.runId, c.id, none, none, none⟩) k =
        s.outbox k := Table.put_of_ne hk
      refine ⟨fun row hc => (h.rows k).1 row ?_, fun j row hp => (h.rows k).2 j row ?_⟩
      · rwa [← hrow]
      · rwa [← hrow]
  · intro k hk
    replace hk : k < s.nextOutbox + 1 := hk
    by_cases hk' : k = s.nextOutbox
    · rw [hk', Function.update_self]
      exact hlt
    · rw [hname hk']
      exact h.used k (by omega)
  · intro k m hk hm hk' hm' heq
    replace hk' : k < s.nextOutbox + 1 := hk'
    replace hm' : m < s.nextOutbox + 1 := hm'
    -- the run of the new row is the transaction's own, which no older row has
    by_cases hkn : k = s.nextOutbox
    · by_cases hmn : m = s.nextOutbox
      · rw [hkn, hmn]
      · rw [hkn, Function.update_self, hname hmn] at heq
        exact absurd heq.symm (hfree m hm (by omega))
    · by_cases hmn : m = s.nextOutbox
      · rw [hmn, Function.update_self, hname hkn] at heq
        exact absurd heq (hfree k hk (by omega))
      · rw [hname hkn, hname hmn] at heq
        exact h.inj k m hk hm (by omega) (by omega) heq
  · intro j d hd
    have hj : j ≠ i := by
      rintro rfl
      replace hd : (Function.update s.phase j (.recorded c) j).charged? = some d := hd
      rw [Function.update_self] at hd
      cases hd
    replace hd : (Function.update s.phase i (.recorded c) j).charged? = some d := hd
    rw [hother hj] at hd
    obtain ⟨hlt', hfree', hone', hwriter'⟩ := h.charged j d hd
    refine ⟨hlt', fun k hk hk' => ?_, fun m e he heq => ?_, hwriter'⟩
    · replace hk' : k < s.nextOutbox + 1 := hk'
      by_cases hkn : k = s.nextOutbox
      · rw [hkn, Function.update_self]
        intro heq
        exact hj (hone j d hd heq.symm).symm
      · rw [hname hkn]
        exact hfree' k hk (by omega)
    · by_cases hm : m = i
      · subst hm
        replace he : (Function.update s.phase m (.recorded c) m).charged? = some e := he
        rw [Function.update_self] at he
        cases he
      · replace he : (Function.update s.phase i (.recorded c) m).charged? = some e := he
        rw [hother hm] at he
        exact hone' m e he heq
  · intro j d hd
    replace hd : (Function.update s.phase i (.recorded c) j).recorded? = some d := hd
    -- the transaction that acts holds the new row; the others hold theirs
    by_cases hj : j = i
    · subst hj
      rw [Function.update_self] at hd
      obtain rfl := Option.some_inj.mp hd
      refine ⟨s.nextOutbox, ⟨c.runId, c.id, none, none, none⟩, hids.1, Nat.lt_succ_self _,
        Function.update_self _ _ _, ?_⟩
      show (s.outbox.put s.nextOutbox j _ s.nextOutbox).pending = _
      rw [Table.put_self]
      rfl
    · rw [hother hj] at hd
      obtain ⟨k, row, hk, hk', hf, hp⟩ := h.recorded j d hd
      refine ⟨k, row, hk, Nat.lt_succ_of_lt hk', ?_, ?_⟩
      · rw [hname hk'.ne, hf]
      · show (s.outbox.put s.nextOutbox i _ k).pending = _
        rw [Table.put_of_ne hk'.ne]
        exact hp
  · intro k j row hp hc
    replace hp : (s.outbox.put s.nextOutbox i _ k).pending = some (j, some row) := hp
    replace hc : (s.outbox.put s.nextOutbox i _ k).committed = none := hc
    show ∃ d, (Function.update s.phase i (.recorded c) j).recorded? = some d ∧ _
    rcases Table.pending_of_put hp with ⟨rfl, heq⟩ | ⟨hk, hp⟩
    · obtain ⟨rfl, -⟩ := Prod.mk.inj heq
      rw [Function.update_self, Function.update_self]
      exact ⟨c, rfl, rfl⟩
    · rw [hcom] at hc
      obtain ⟨d, hd, hf⟩ := h.uncommitted k j row hp hc
      have hj : j ≠ i := by
        rintro rfl
        rw [hphase] at hd
        cases hd
      rw [hother hj, hname hk]
      exact ⟨d, hd, hf⟩
  · intro j d hd
    obtain ⟨k, hk, hc, hf⟩ := h.charges j d hd
    exact ⟨k, hk, by rw [← hcom k] at hc; exact hc, by rw [hname (hne hc), hf]⟩
  · intro k hk
    replace hk : (s.outbox.put s.nextOutbox i _ k).committed ≠ none := hk
    rw [hcom] at hk
    rw [hname (hne hk)]
    exact h.committed k hk
  · intro j relay hrelay x hx
    have hj : j ≠ i := by
      rintro rfl
      rw [htxn] at hrelay
      cases hrelay
    replace hx : x ∈ (Function.update s.phase i (.recorded c) j).reads := hx
    rw [hother hj] at hx
    exact (h.reads j relay hrelay x hx).imp_left hrun
  · intro j d hd
    by_cases hj : j = i
    · subst hj
      replace hd : d ∈ (Function.update s.phase j (.recorded c) j).inserted := hd
      rw [Function.update_self] at hd
      cases hd
    · replace hd : d ∈ (Function.update s.phase i (.recorded c) j).inserted := hd
      rw [hother hj] at hd
      exact hrun (h.inserted j d hd)
  · exact fun j d hd => hrun (h.delivered j d hd)

/-- **A transaction rewrites rows** that are free for it, and they keep their names. -/
theorem Named.rewrite (h : s.Named txn f) {i : ι} {q : ℕ → OutboxRow R → Bool}
    {g : OutboxRow R → OutboxRow R} {p : Phase R}
    (hg : ∀ row, (g row).runId = row.runId ∧ (g row).aggregateId = row.aggregateId)
    (hfree : ∀ k row, (s.outbox k).seen i = some row → q k row = true →
      (s.outbox k).free i = true)
    (hcharged : p.charged? = none) (hrecorded : p.recorded? = (s.phase i).recorded?)
    (hreads : ∀ relay, txn i = .pass relay → ∀ x ∈ p.reads, s.OfRun f x.1 x.2 ∧
      ∀ runId, relay.runId = some runId → x.2 = runId)
    (hinserted : ∀ d ∈ p.inserted, s.OfRun f d.outboxId d.runId) :
    ({ s with outbox := s.outbox.updateWhere i q g }.enter i p).Named txn f := by
  have hentered : (s.enter i p).Named txn f := by
    refine h.enter rfl rfl rfl le_rfl rfl rfl (fun c hc => ?_) hrecorded hreads hinserted
    rw [hcharged] at hc
    cases hc
  have hcom : ∀ k, (s.outbox.updateWhere i q g k).committed = (s.outbox k).committed := by
    intro k
    rcases Table.updateWhere_cases s.outbox i q g k with ⟨row, -, -, hk⟩ | hk
    · rw [hk, Row.committed_put]
    · rw [hk]
  refine { hentered with
    rows := fun k => ⟨fun row hc => ?_, fun j row hp => ?_⟩
    recorded := fun j c hc => ?_
    uncommitted := fun k j row hp hc => ?_
    charges := fun j c hc => ?_
    committed := fun k hk => ?_ }
  · replace hc : (s.outbox.updateWhere i q g k).committed = some row := hc
    rw [hcom] at hc
    exact (h.rows k).1 row hc
  · replace hp : (s.outbox.updateWhere i q g k).pending = some (j, some row) := hp
    rcases Table.updateWhere_cases s.outbox i q g k with ⟨old, hseen, -, hk⟩ | hk
    · rw [hk, Row.pending_put, Option.some_inj, Prod.mk.injEq] at hp
      rw [← Option.some_inj.mp hp.2, (hg old).1, (hg old).2]
      -- what the transaction saw is its own version or the committed one
      by_cases hown : ∃ v, (s.outbox k).pending = some (i, v)
      · obtain ⟨v, hv⟩ := hown
        rw [Row.seen_of_pending hv] at hseen
        exact (h.rows k).2 i old (hseen ▸ hv)
      · push Not at hown
        rw [Row.seen_of_ne hown] at hseen
        exact (h.rows k).1 old hseen
    · rw [hk] at hp
      exact (h.rows k).2 j row hp
  · obtain ⟨k, row, hk, hk', hf, hp⟩ := hentered.recorded j c hc
    replace hp : (s.outbox k).pending = some (j, some row) := hp
    rcases Table.updateWhere_cases s.outbox i q g k with ⟨old, hseen, hq, hk₁⟩ | hk₁
    · obtain rfl := Row.free_iff.mp (hfree k old hseen hq) j _ hp
      exact ⟨k, g old, hk, hk', hf, by
        show (s.outbox.updateWhere j q g k).pending = _
        rw [hk₁, Row.pending_put]⟩
    · exact ⟨k, row, hk, hk', hf, by
        show (s.outbox.updateWhere i q g k).pending = _
        rw [hk₁, hp]⟩
  · replace hp : (s.outbox.updateWhere i q g k).pending = some (j, some row) := hp
    replace hc : (s.outbox.updateWhere i q g k).committed = none := hc
    rw [hcom] at hc
    rcases Table.updateWhere_cases s.outbox i q g k with ⟨old, hseen, hq, hk⟩ | hk
    · rw [hk, Row.pending_put, Option.some_inj, Prod.mk.injEq] at hp
      obtain ⟨rfl, -⟩ := hp
      by_cases hown : ∃ v, (s.outbox k).pending = some (i, v)
      · obtain ⟨v, hv⟩ := hown
        rw [Row.seen_of_pending hv] at hseen
        exact hentered.uncommitted k i old (hseen ▸ hv) hc
      · push Not at hown
        rw [Row.seen_of_ne hown, hc] at hseen
        cases hseen
    · rw [hk] at hp
      exact hentered.uncommitted k j row hp hc
  · obtain ⟨k, hk, hcm, hf⟩ := h.charges j c hc
    exact ⟨k, hk, by rw [← hcom k] at hcm; exact hcm, hf⟩
  · replace hk : (s.outbox.updateWhere i q g k).committed ≠ none := hk
    rw [hcom] at hk
    exact h.committed k hk

/-- **A transaction commits**: its charge with its row, or its deliveries with their marks. -/
theorem Named.commit (h : s.Named txn f) (hinv : s.Inv) {i : ι}
    (hphase : s'.phase = Function.update s.phase i .committed)
    (hout : s'.outbox = s.outbox.commit i) (hnext : s'.nextOutbox = s.nextOutbox)
    (hcharge : s'.nextCharge = s.nextCharge)
    (hcharges : s'.charges = s.charges ++ ((s.phase i).recorded?.map (Prod.mk i)).toList)
    (hdel : s'.delivered = s.delivered ++ ((s.phase i).inserted).map (Prod.mk i)) :
    s'.Named txn f := by
  have hself : s'.phase i = .committed := by rw [hphase, Function.update_self]
  have hother : ∀ {j}, j ≠ i → s'.phase j = s.phase j := by
    intro j hj
    rw [hphase, Function.update_of_ne hj]
  have hown : ∀ {k v}, (s.outbox k).pending = some (i, v) → s'.outbox k = ⟨v, none⟩ := by
    intro k v hv
    rw [hout]
    exact Row.commit_of_pending hv
  have hkept : ∀ {k}, (∀ v, (s.outbox k).pending ≠ some (i, v)) → s'.outbox k = s.outbox k := by
    intro k hk
    rw [hout]
    exact Row.commit_of_ne hk
  have hcom : ∀ {k}, (s.outbox k).committed ≠ none → (s'.outbox k).committed ≠ none := by
    intro k hk
    by_cases hi : ∃ v, (s.outbox k).pending = some (i, v)
    · obtain ⟨v, hv⟩ := hi
      obtain ⟨-, row, rfl, -⟩ := hinv.pending hv
      rw [hown hv]
      exact Option.some_ne_none row
    · push Not at hi
      rwa [hkept hi]
  have hrun : ∀ {k : ℕ} {r : R}, s.OfRun f k r → s'.OfRun f k r :=
    fun hk => ⟨hnext ▸ hk.1, hk.2⟩
  refine
    { rows := fun k => ⟨fun row hc => ?_, fun j row hp => ?_⟩, used := ?_, inj := ?_
      charged := ?_, recorded := ?_, uncommitted := ?_, charges := ?_, committed := ?_, reads := ?_
      inserted := ?_, delivered := ?_ }
  · by_cases hi : ∃ v, (s.outbox k).pending = some (i, v)
    · obtain ⟨v, hv⟩ := hi
      rw [hown hv] at hc
      exact (h.rows k).2 i row (hc ▸ hv)
    · push Not at hi
      rw [hkept hi] at hc
      exact (h.rows k).1 row hc
  · rw [hout] at hp
    exact (h.rows k).2 j row (Row.pending_of_commit hp).1
  · rw [hnext, hcharge]
    exact h.used
  · rw [hnext]
    exact h.inj
  · intro j c hc
    have hj : j ≠ i := by
      rintro rfl
      rw [hself] at hc
      cases hc
    rw [hother hj] at hc
    rw [hnext, hcharge]
    obtain ⟨hlt, hfree, hone, hwriter⟩ := h.charged j c hc
    refine ⟨hlt, hfree, fun m d hd heq => ?_, hwriter⟩
    have hm : m ≠ i := by
      rintro rfl
      rw [hself] at hd
      cases hd
    rw [hother hm] at hd
    exact hone m d hd heq
  · intro j c hc
    have hj : j ≠ i := by
      rintro rfl
      rw [hself] at hc
      cases hc
    rw [hother hj] at hc
    obtain ⟨k, row, hk, hk', hf, hp⟩ := h.recorded j c hc
    exact ⟨k, row, hk, hnext ▸ hk', hf, by
      rw [hkept fun v => Row.pending_ne_of_ne hp hj v, hp]⟩
  · intro k j row hp hc
    rw [hout] at hp
    obtain ⟨hp', hj⟩ := Row.pending_of_commit hp
    rw [hkept fun v => Row.pending_ne_of_ne hp' hj v] at hc
    rw [hother hj]
    exact h.uncommitted k j row hp' hc
  · intro j c hc
    rw [hcharges] at hc
    rcases List.mem_append.mp hc with hc | hc
    · obtain ⟨k, hk, hcm, hf⟩ := h.charges j c hc
      exact ⟨k, hk, hcom hcm, hf⟩
    · obtain ⟨d, hd, heq⟩ := Option.map_eq_some_iff.mp (Option.mem_toList.mp hc)
      obtain ⟨rfl, rfl⟩ := Prod.mk.inj heq
      obtain ⟨k, row, hk, -, hf, hp⟩ := h.recorded i d hd
      exact ⟨k, hk, by rw [hown hp]; exact Option.some_ne_none row, hf⟩
  · intro k hk
    rw [hcharges]
    by_cases hold : (s.outbox k).committed = none
    · -- a row that this transaction has just committed
      have hi : ∃ v, (s.outbox k).pending = some (i, v) := by
        by_contra hi
        push Not at hi
        rw [hkept hi] at hk
        exact hk hold
      obtain ⟨v, hv⟩ := hi
      obtain ⟨-, row, rfl, -⟩ := hinv.pending hv
      obtain ⟨c, hc, hf⟩ := h.uncommitted k i row hv hold
      exact ⟨i, c, List.mem_append_right _ (by rw [hc]; simp), hf⟩
    · obtain ⟨j, c, hc, hf⟩ := h.committed k hold
      exact ⟨j, c, List.mem_append_left _ hc, hf⟩
  · intro j relay hrelay x hx
    have hj : j ≠ i := by
      rintro rfl
      rw [hself] at hx
      cases hx
    rw [hother hj] at hx
    exact (h.reads j relay hrelay x hx).imp_left hrun
  · intro j d hd
    have hj : j ≠ i := by
      rintro rfl
      rw [hself] at hd
      cases hd
    rw [hother hj] at hd
    exact hrun (h.inserted j d hd)
  · intro j d hd
    rw [hdel] at hd
    rcases List.mem_append.mp hd with hd | hd
    · exact hrun (h.delivered j d hd)
    · obtain ⟨e, he, heq⟩ := List.mem_map.mp hd
      obtain ⟨rfl, rfl⟩ := Prod.mk.inj heq
      exact hrun (h.inserted i e he)

/-- **A transaction fails**, and leaves nothing behind. -/
theorem Named.abort (h : s.Named txn f) {i : ι} :
    ({ s with outbox := s.outbox.rollback i }.enter i .aborted).Named txn f := by
  -- a rollback takes away only rows that were never committed
  have hcom : ∀ k, (s.outbox.rollback i k).committed = (s.outbox k).committed :=
    fun k => Row.committed_rollback
  have hkept : ∀ {k}, (∀ v, (s.outbox k).pending ≠ some (i, v)) →
      s.outbox.rollback i k = s.outbox k := fun hk => Row.rollback_of_ne hk
  have hphase : ∀ {j}, Function.update s.phase i .aborted j ≠ .aborted →
      j ≠ i ∧ Function.update s.phase i .aborted j = s.phase j := by
    intro j hj
    have hji : j ≠ i := by
      rintro rfl
      exact hj (Function.update_self _ _ _)
    exact ⟨hji, Function.update_of_ne hji _ _⟩
  refine
    { rows := fun k => ⟨fun row hc => ?_, fun j row hp => ?_⟩, used := h.used, inj := h.inj
      charged := ?_, recorded := ?_, uncommitted := ?_, charges := ?_, committed := ?_, reads := ?_
      inserted := ?_, delivered := h.delivered }
  · replace hc : (s.outbox.rollback i k).committed = some row := hc
    rw [hcom] at hc
    exact (h.rows k).1 row hc
  · exact (h.rows k).2 j row (Row.pending_of_rollback hp).1
  · intro j c hc
    replace hc : (Function.update s.phase i .aborted j).charged? = some c := hc
    obtain ⟨-, hj⟩ := hphase (j := j) (by intro hn; rw [hn] at hc; cases hc)
    rw [hj] at hc
    obtain ⟨hlt, hfree, hone, hwriter⟩ := h.charged j c hc
    refine ⟨hlt, hfree, fun m d hd heq => ?_, hwriter⟩
    replace hd : (Function.update s.phase i .aborted m).charged? = some d := hd
    obtain ⟨-, hm⟩ := hphase (j := m) (by intro hn; rw [hn] at hd; cases hd)
    rw [hm] at hd
    exact hone m d hd heq
  · intro j c hc
    replace hc : (Function.update s.phase i .aborted j).recorded? = some c := hc
    obtain ⟨hji, hj⟩ := hphase (j := j) (by intro hn; rw [hn] at hc; cases hc)
    rw [hj] at hc
    obtain ⟨k, row, hk, hk', hf, hp⟩ := h.recorded j c hc
    exact ⟨k, row, hk, hk', hf, by
      show (s.outbox.rollback i k).pending = _
      rw [hkept fun v => Row.pending_ne_of_ne hp hji v, hp]⟩
  · intro k j row hp hc
    obtain ⟨hp', hji⟩ := Row.pending_of_rollback hp
    replace hc : (s.outbox.rollback i k).committed = none := hc
    rw [hcom] at hc
    show ∃ c, (Function.update s.phase i .aborted j).recorded? = some c ∧ _
    rw [Function.update_of_ne hji]
    exact h.uncommitted k j row hp' hc
  · intro j c hc
    obtain ⟨k, hk, hcm, hf⟩ := h.charges j c hc
    exact ⟨k, hk, by rw [← hcom k] at hcm; exact hcm, hf⟩
  · intro k hk
    replace hk : (s.outbox.rollback i k).committed ≠ none := hk
    rw [hcom] at hk
    exact h.committed k hk
  · intro j relay hrelay x hx
    replace hx : x ∈ (Function.update s.phase i .aborted j).reads := hx
    obtain ⟨-, hj⟩ := hphase (j := j) (by intro hn; rw [hn] at hx; cases hx)
    rw [hj] at hx
    exact h.reads j relay hrelay x hx
  · intro j d hd
    replace hd : d ∈ (Function.update s.phase i .aborted j).inserted := hd
    obtain ⟨-, hj⟩ := hphase (j := j) (by intro hn; rw [hn] at hd; cases hd)
    rw [hj] at hd
    exact h.inserted j d hd

variable [DecidableEq R]

/-- The rows that a pass finds are of the run that it asks for. -/
theorem Named.found (h : s.Named txn f) (hinv : s.Inv) {i : ι} {relay : Relay R} {x : ℕ × R}
    (hx : x ∈ s.found i relay) : s.OfRun f x.1 x.2 ∧
      ∀ runId, relay.runId = some runId → x.2 = runId := by
  obtain ⟨k, -, hk⟩ := List.mem_filterMap.mp (List.mem_of_mem_take hx)
  obtain ⟨row, hrow, hrest⟩ := Option.bind_eq_some_iff.mp hk
  split at hrest
  case isFalse => cases hrest
  next hcond =>
  obtain rfl := Option.some_inj.mp hrest
  rw [Bool.and_eq_true, Relay.wants, Bool.and_eq_true] at hcond
  obtain ⟨-, hrun, -⟩ := hcond
  refine ⟨⟨?_, ?_⟩, ?_⟩
  -- a row beyond the counter does not exist
  · by_contra hge
    rw [hinv.fresh (not_lt.mp hge)] at hrow
    cases hrow
  -- a relay sees the row it has stamped itself as it was committed, but for the stamp
  · by_cases hown : ∃ v, (s.outbox k).pending = some (i, v)
    · obtain ⟨v, hv⟩ := hown
      rw [Row.seen_of_pending hv] at hrow
      exact (congrArg Prod.fst ((h.rows k).2 i row (hrow ▸ hv))).symm
    · push Not at hown
      rw [Row.seen_of_ne hown] at hrow
      exact (congrArg Prod.fst ((h.rows k).1 row hrow)).symm
  · intro runId hrelay
    rw [hrelay] at hrun
    exact of_decide_eq_true hrun

/-- **Every statement keeps the names**, and `INSERT INTO t6_outbox` gives a new one. -/
theorem Named.step (h : s.Named txn f) (hinv : s.Inv) (hids : s.IdsFromOne) {a : Action ι}
    (hs : step txn s a = some s') : ∃ g, s'.Named txn g := by
  have hidle : ∀ {i : ι} {p : Phase R}, p.charged? = none →
      p.recorded? = (s.phase i).recorded? → p.reads = [] → p.inserted = [] →
      (s.enter i p).Named txn f := by
    intro i p hc hr hreads hins
    refine h.enter rfl rfl rfl le_rfl rfl rfl ?_ hr ?_ ?_
    · intro c hc'
      rw [hc] at hc'
      cases hc'
    · rw [hreads]
      intro _ _ x hx
      cases hx
    · rw [hins]
      intro d hd
      cases hd
  cases a with
  | tick d =>
    obtain rfl := Option.some_inj.mp hs
    exact ⟨f, { h with }⟩
  | begin i =>
    simp only [Outbox.step, begin] at hs
    split at hs
    · next hphase =>
      obtain rfl := Option.some_inj.mp hs
      exact ⟨f, hidle rfl (by rw [hphase]; rfl) rfl rfl⟩
    · cases hs
  | insertCharge i =>
    simp only [Outbox.step] at hs
    split at hs
    case h_2 => cases hs
    next runId amount htxn =>
    simp only [insertCharge] at hs
    split at hs
    case h_2 => cases hs
    next hphase =>
    obtain rfl := Option.some_inj.mp hs
    refine ⟨f, h.enter rfl rfl rfl (Nat.le_succ _) rfl rfl ?_ (by rw [hphase]; rfl) ?_ ?_⟩
    · -- the id is new
      intro c hc
      obtain rfl := Option.some_inj.mp hc
      refine ⟨Nat.lt_succ_self _, fun k hk hk' => (h.used k hk').ne, ?_, amount, htxn⟩
      intro j d _ hd
      exact (h.charged j d hd).1.ne
    · intro relay hrelay x hx
      cases hx
    · intro d hd
      cases hd
  | insertOutbox i =>
    simp only [Outbox.step] at hs
    split at hs
    case h_2 => cases hs
    next runId amount htxn =>
    simp only [State.insertOutbox] at hs
    split at hs
    case h_2 => cases hs
    next c hphase =>
    obtain rfl := Option.some_inj.mp hs
    exact ⟨_, h.insertOutbox hinv hids htxn hphase⟩
  | stamp i =>
    simp only [Outbox.step] at hs
    split at hs
    case h_2 => cases hs
    next runId amount htxn =>
    simp only [stamp] at hs
    split at hs
    case h_2 => cases hs
    next c hphase =>
    split at hs
    case isFalse => cases hs
    next hall =>
    obtain rfl := Option.some_inj.mp hs
    refine ⟨f, h.rewrite (fun _ => ⟨rfl, rfl⟩) ?_ rfl (by rw [hphase]; rfl) ?_ ?_⟩
    · intro k row hrow hq
      refine List.all_eq_true.mp hall k (List.mem_filter.mpr ⟨List.mem_range.mpr ?_, ?_⟩)
      · by_contra hk
        rw [hinv.fresh (Nat.le_of_not_lt hk)] at hrow
        cases hrow
      · rw [hrow]
        exact hq
    · intro relay hrelay x hx
      cases hx
    · intro d hd
      cases hd
  | select i =>
    simp only [Outbox.step] at hs
    split at hs
    case h_1 => cases hs
    next relay htxn =>
    simp only [select] at hs
    split at hs
    case h_2 => cases hs
    next hphase =>
    split at hs
    · cases hs
    obtain rfl := Option.some_inj.mp hs
    refine ⟨f, h.rewrite (fun _ => ⟨rfl, rfl⟩) ?_ rfl (by rw [hphase]; rfl) ?_ ?_⟩
    · intro k row hrow hq
      obtain ⟨_, -, hfree, -⟩ := mem_found (of_decide_eq_true hq)
      exact hfree
    · intro relay' hrelay x hx
      rw [htxn] at hrelay
      obtain rfl : relay = relay' := by injection hrelay
      exact h.found hinv hx
    · intro d hd
      cases hd
  | deliver i =>
    simp only [Outbox.step] at hs
    split at hs
    case h_1 => cases hs
    next relay htxn =>
    simp only [deliver] at hs
    split at hs
    case h_2 => cases hs
    next oid runId todo sent hphase =>
    obtain rfl := Option.some_inj.mp hs
    have hreads := h.reads i relay htxn
    have hins := h.inserted i
    rw [hphase] at hreads hins
    refine ⟨f, h.enter rfl rfl rfl le_rfl rfl rfl (fun c hc => by cases hc)
      (by rw [hphase]; rfl) ?_ ?_⟩
    · intro relay' hrelay x hx
      rw [htxn] at hrelay
      obtain rfl : relay = relay' := by injection hrelay
      exact hreads x (List.mem_cons_of_mem _ hx)
    · intro d hd
      rcases List.mem_cons.mp hd with rfl | hd
      · -- the run of the pass is that of the row
        obtain ⟨hof, hrun⟩ := hreads (oid, runId) List.mem_cons_self
        cases hr : relay.runId with
        | none => exact hof
        | some r => exact ⟨hof.1, hof.2.trans (hrun r hr)⟩
      · exact hins d hd
  | mark i =>
    simp only [Outbox.step] at hs
    split at hs
    case h_1 => cases hs
    next relay htxn =>
    simp only [State.mark] at hs
    split at hs
    case h_2 => cases hs
    next d todo sent hphase =>
    split at hs
    case isFalse => cases hs
    next hfree =>
    obtain rfl := Option.some_inj.mp hs
    have hreads := h.reads i relay htxn
    have hins := h.inserted i
    rw [hphase] at hreads hins
    refine ⟨f, h.rewrite (fun _ => ⟨rfl, rfl⟩) ?_ rfl (by rw [hphase]; rfl) ?_ ?_⟩
    · intro k row hrow hq
      rw [of_decide_eq_true hq]
      exact hfree
    · intro relay' hrelay x hx
      rw [htxn] at hrelay
      obtain rfl : relay = relay' := by injection hrelay
      exact hreads x hx
    · intro e he
      rcases List.mem_append.mp he with he | he
      · exact hins e (List.mem_cons_of_mem _ he)
      · rw [List.mem_singleton.mp he]
        exact hins d List.mem_cons_self
  | commit i =>
    simp only [Outbox.step, State.commit] at hs
    split at hs
    · next c hphase =>
      obtain rfl := Option.some_inj.mp hs
      refine ⟨f, h.commit hinv rfl rfl rfl rfl (by rw [hphase]; rfl) ?_⟩
      rw [hphase]
      exact (List.append_nil _).symm
    · next sent hphase =>
      obtain rfl := Option.some_inj.mp hs
      refine ⟨f, h.commit hinv rfl rfl rfl rfl ?_ (by rw [hphase]; rfl)⟩
      rw [hphase]
      exact (List.append_nil _).symm
    · cases hs
  | abort i =>
    simp only [Outbox.step, State.abort] at hs
    split at hs
    · cases hs
    · cases hs
    · cases hs
    · rw [Option.some_inj] at hs
      exact ⟨f, hs ▸ h.abort⟩

/-- What holds of the tables after every run. -/
theorem named_of_reach (r : R) (h : Reach (step txn) init s) :
    s.Inv ∧ s.IdsFromOne ∧ ∃ f, s.Named txn f := by
  refine h.invariant (P := fun s => s.Inv ∧ s.IdsFromOne ∧ ∃ f, s.Named txn f)
    ⟨.init, ⟨Nat.one_pos, rfl⟩, _, .init r⟩ ?_
  rintro s a s' ⟨hinv, hids, f, hf⟩ hs
  exact ⟨hinv.step hs, idsFromOne_step hids hs, hf.step hinv hids hs⟩

omit [DecidableEq ι] [DecidableEq R] in
/-- The row of a charge. -/
theorem Named.eq_of_aggregateId (h : s.Named txn f) (hinv : s.Inv) (hids : s.IdsFromOne)
    {k m : ℕ} {row row' : OutboxRow R} (hk : (s.outbox k).committed = some row)
    (hm : (s.outbox m).committed = some row') (heq : row.aggregateId = row'.aggregateId) :
    k = m := by
  have hbound : ∀ {k row}, (s.outbox k).committed = some row → 0 < k ∧ k < s.nextOutbox := by
    intro k row hk
    constructor
    · rw [Nat.pos_iff_ne_zero]
      rintro rfl
      rw [hids.2] at hk
      cases hk
    · by_contra hge
      rw [hinv.fresh (not_lt.mp hge)] at hk
      cases hk
  refine h.inj k m (hbound hk).1 (hbound hm).1 (hbound hk).2 (hbound hm).2 ?_
  rw [← (h.rows k).1 row hk, ← (h.rows m).1 row' hm]
  exact heq

omit [DecidableEq ι] [DecidableEq R] in
/-- The committed row of a committed charge. -/
theorem Named.row_of_charge (h : s.Named txn f) {i : ι} {c : Charge R}
    (hc : (i, c) ∈ s.charges) : ∃ k row, (s.outbox k).committed = some row ∧
      row.runId = c.runId ∧ row.aggregateId = c.id := by
  obtain ⟨k, -, hk, hname⟩ := h.charges i c hc
  obtain ⟨row, hrow⟩ := Option.ne_none_iff_exists'.mp hk
  have hnamed := ((h.rows k).1 row hrow).trans hname
  rw [Prod.mk.injEq] at hnamed
  exact ⟨k, row, hrow, hnamed⟩

omit [DecidableEq ι] [DecidableEq R] in
/-- The committed charge of a committed row. -/
theorem Named.charge_of_row (h : s.Named txn f) {k : ℕ} {row : OutboxRow R}
    (hrow : (s.outbox k).committed = some row) : ∃ i c, (i, c) ∈ s.charges ∧
      c.runId = row.runId ∧ c.id = row.aggregateId := by
  obtain ⟨i, c, hc, hname⟩ := h.committed k (by rw [hrow]; exact Option.some_ne_none row)
  have hnamed := ((h.rows k).1 row hrow).trans hname
  rw [Prod.mk.injEq] at hnamed
  exact ⟨i, c, hc, hnamed.1.symm, hnamed.2.symm⟩

omit [DecidableEq ι] [DecidableEq R] in
/-- A delivery is of a committed row, and of its run. -/
theorem Named.row_of_delivery (h : s.Named txn f) (hinv : s.Inv) {i : ι} {d : Delivery R}
    (hd : (i, d) ∈ s.delivered) :
    ∃ row, (s.outbox d.outboxId).committed = some row ∧ row.runId = d.runId := by
  have hpub : s.Published d.outboxId := by
    by_contra hnot
    have hmem : (i, d) ∈ s.deliveries d.outboxId :=
      List.mem_filter.mpr ⟨hd, decide_eq_true rfl⟩
    rw [(hinv.delivered _).2 hnot] at hmem
    cases hmem
  obtain ⟨row, hrow, -⟩ := hpub
  refine ⟨row, hrow, ?_⟩
  rw [← (h.delivered i d hd).2, ← (h.rows _).1 row hrow]

end State

open State

variable [DecidableEq ι] [DecidableEq R]

/-- **The charge and its event commit together.**  In every interleaving of writers and
passes, with any of them failing at any statement, each committed charge has exactly one
committed outbox row, of its run, and each committed outbox row has a committed charge. -/
theorem writer_atomic (txn : ι → Txn R) {s : State ι R} (h : Reach (step txn) init s) :
    (∀ i c, (i, c) ∈ s.charges → ∃ k row, (s.outbox k).committed = some row ∧
      row.runId = c.runId ∧ row.aggregateId = c.id ∧
      ∀ m row', (s.outbox m).committed = some row' → row'.aggregateId = c.id → m = k) ∧
    ∀ k row, (s.outbox k).committed = some row → ∃ i c, (i, c) ∈ s.charges ∧
      c.runId = row.runId ∧ c.id = row.aggregateId := by
  constructor
  · intro i c hc
    obtain ⟨hinv, hids, f, hf⟩ := named_of_reach c.runId h
    obtain ⟨k, row, hrow, hrun, hid⟩ := hf.row_of_charge hc
    refine ⟨k, row, hrow, hrun, hid, fun m row' hm heq => ?_⟩
    exact hf.eq_of_aggregateId hinv hids hm hrow (heq.trans hid.symm)
  · intro k row hrow
    obtain ⟨-, -, f, hf⟩ := named_of_reach row.runId h
    exact hf.charge_of_row hrow

/-- Writer `0` fails after both inserts, and writer `1` commits. -/
theorem writer_atomic_abort : ∃ s : State (Fin 6) ℕ,
    exec (step twoWriters) init [.begin 0, .insertCharge 0, .insertOutbox 0, .begin 1,
      .insertCharge 1, .insertOutbox 1, .abort 0, .stamp 1, .commit 1] = some s ∧
    s.charges = [(1, ⟨2, 6, 700⟩)] ∧ (s.outbox 1).committed = none ∧
    ∃ k row, (s.outbox k).committed = some row ∧ row.runId = 6 ∧ row.aggregateId = 2 ∧
      ∀ m row', (s.outbox m).committed = some row' → row'.aggregateId = 2 → m = k := by
  have hrun : (exec (step twoWriters) init [.begin 0, .insertCharge 0, .insertOutbox 0, .begin 1,
      .insertCharge 1, .insertOutbox 1, .abort 0, .stamp 1, .commit 1]).map (fun s =>
        (s.charges, (s.outbox 1).committed)) = some ([(1, ⟨2, 6, 700⟩)], none) := by decide
  obtain ⟨s, hs, hobs⟩ := Option.map_eq_some_iff.mp hrun
  rw [Prod.mk.injEq] at hobs
  have hmem : ((1 : Fin 6), (⟨2, 6, 700⟩ : Charge ℕ)) ∈ s.charges := by
    rw [hobs.1]
    exact List.mem_cons_self
  exact ⟨s, hs, hobs.1, hobs.2, (writer_atomic twoWriters (.of_exec _ hs)).1 1 _ hmem⟩

end Outbox
end SepLab
