import Mathlib.Data.Finset.Card
import Mathlib.Data.Finset.Dedup
import SepLab.DataLoader.Loader
import SepLab.Lib.ProgRun

/-!
# Three ways to get the customers of the orders

The endpoint of `dataloader_batching.js`: one query for each order, a `BatchLoader` that is
asked for all customers before the first of them is awaited, and one that is asked for the next
customer when the last one is there.  The client counts the queries and the rows.

A variant runs alone, on a database that answers; when it awaits something its job is over, the
callbacks of `process.nextTick` are called, and the query of the batch is answered.

## Main definitions

* `Db` — the two tables, with their keys.
* `Ask`, `World`, `World.answer` — what a variant does not compute itself.
* `resolverPerField`, `dataloaderSameTick`, `dataloaderAcrossTicks` — the variants.

## Main results

* `Sound.endTick` — a batch costs one query, and settles its loads with their rows.
* `variants_agree` — **all three return the join**, at the price of `1 + n`, two, and again
  `1 + n` queries.
-/

namespace SepLab
namespace DataLoader

/-- A row of `orders`, as far as it is selected. -/
structure Order (κ : Type) where
  id : κ
  customerId : κ
  status : String
  deriving DecidableEq, Repr

/-- A row of `customers`, as far as it is selected. -/
structure Customer (κ : Type) where
  id : κ
  email : String
  deriving DecidableEq, Repr

/-- What the endpoint returns for an order. -/
structure Out (κ : Type) where
  id : κ
  status : String
  email : String
  deriving DecidableEq, Repr

/-- The tables; the orders are in the order of their ids. -/
structure Db (κ : Type) where
  orders : List (Order κ)
  customers : List (Customer κ)
  /-- `id bigint PRIMARY KEY` -/
  primary : (customers.map (·.id)).Nodup
  /-- `customer_id bigint NOT NULL REFERENCES customers(id)` -/
  foreign : ∀ o ∈ orders, o.customerId ∈ customers.map (·.id)

namespace Db

variable {κ : Type} [DecidableEq κ]

omit [DecidableEq κ] in
/-- `SELECT id, customer_id, status FROM orders ORDER BY id LIMIT $1` -/
def ordersUpTo (db : Db κ) (limit : ℕ) : List (Order κ) := db.orders.take limit

/-- `SELECT id, email FROM customers WHERE id = $1` -/
def customer (db : Db κ) (id : κ) : List (Customer κ) := db.customers.filter (·.id = id)

/-- `SELECT id, email FROM customers WHERE id = ANY($1)` -/
def customersIn (db : Db κ) (ids : List κ) : List (Customer κ) :=
  db.customers.filter (·.id ∈ ids)

/-- The rows of an order joined with `customers`. -/
def outs (db : Db κ) (o : Order κ) : List (Out κ) :=
  (db.customer o.customerId).map fun c => ⟨o.id, o.status, c.email⟩

/-- The first `limit` orders joined with `customers`. -/
def join (db : Db κ) (limit : ℕ) : List (Out κ) := (db.ordersUpTo limit).flatMap db.outs

end Db

variable {κ : Type} [DecidableEq κ]

/-- `new Map(rows.map((r) => [r.id, r]))`, in which the last row of an id stays. -/
def toMap (rows : List (Customer κ)) (id : κ) : Option (Customer κ) :=
  (rows.filter (·.id = id)).getLast?

/-- What a variant asks for. -/
inductive Ask (κ : Type)
  /-- `await db.query(...)` of the orders. -/
  | orders (limit : ℕ)
  /-- `await db.query(...)` of one customer. -/
  | customer (id : κ)
  /-- `loader.load(id)` -/
  | load (id : κ)
  /-- `await` of the promise of a load. -/
  | settled (promise : ℕ)

/-- What it gets; a promise that is rejected throws. -/
abbrev Ans : Ask κ → Type
  | .orders _ => List (Order κ)
  | .customer _ => List (Customer κ)
  | .load _ => ℕ
  | .settled _ => Except String (Option (Customer κ))

/-- The loader, the number of promises, and the counts of `CountingClient`. -/
structure World (κ : Type) where
  mem : Memory ℕ κ (Customer κ) String
  next : ℕ
  queries : ℕ
  rows : ℕ

namespace World

omit [DecidableEq κ] in
/-- `begin()`, and `customerLoader(db)` -/
def init : World κ := ⟨.init, 0, 0, 0⟩

omit [DecidableEq κ] in
/-- `CountingClient.query` -/
def count (w : World κ) (rowCount : ℕ) : World κ :=
  { w with queries := w.queries + 1, rows := w.rows + rowCount }

/-- The job is over.  A callback that is left is called, and the query of `customerLoader` for
its batch, of which no id is sent twice, is answered. -/
def endTick (db : Db κ) (w : World κ) : Option (World κ) :=
  if w.mem.ticks = 0 then some w
  else do
    let m ← Loader.step w.mem .tick
    let batch ← m.batches.getLast?
    let rows := db.customersIn (batch.map (·.key)).eraseDups
    let m ← Loader.step m (.answer (m.batches.length - 1) (.ok (toMap rows)))
    return { w with mem := m }.count rows.length

/-- What the database and the loader answer to a variant. -/
def answer (db : Db κ) (w : World κ) : (e : Ask κ) → Option (Ans e × World κ)
  | .orders limit => do
    let w ← w.endTick db
    let rows := db.ordersUpTo limit
    return (rows, w.count rows.length)
  | .customer id => do
    let w ← w.endTick db
    let rows := db.customer id
    return (rows, w.count rows.length)
  | .load id => do
    let m ← Loader.step w.mem (.load id w.next)
    return (w.next, { w with mem := m, next := w.next + 1 })
  | .settled p => do
    let w ← w.endTick db
    match w.mem.promise p with
    | some (.resolved value) => return (.ok value, w)
    | some (.rejected err) => return (.error err, w)
    | _ => none

end World

/-! ### The variants -/

/-- A variant; `none` is a throw. -/
abbrev Variant (κ : Type) [DecidableEq κ] := Prog (Ask κ) Ans (Option (List (Out κ)))

/-- The loop of `resolverPerField`. -/
def resolveEach : List (Order κ) → List (Out κ) → Variant κ
  | [], out => pure (some out)
  | o :: orders, out => do
    let rows ← Prog.query (Ask.customer o.customerId)
    -- `rows[0].email`
    match rows.head? with
    | none => pure none
    | some c => resolveEach orders (out ++ [⟨o.id, o.status, c.email⟩])

/-- One query for the customer of each order. -/
def resolverPerField (limit : ℕ) : Variant κ := do
  let orders ← Prog.query (Ask.orders limit)
  resolveEach orders []

/-- `orders.map((o) => loader.load(o.customer_id))` -/
def loadEach : List (Order κ) → List ℕ → Prog (Ask κ) Ans (List ℕ)
  | [], pending => pure pending
  | o :: orders, pending => do
    let p ← Prog.query (Ask.load o.customerId)
    loadEach orders (pending ++ [p])

/-- `await Promise.all(pending)` -/
def promiseAll : List ℕ → List (Option (Customer κ)) →
    Prog (Ask κ) Ans (Option (List (Option (Customer κ))))
  | [], values => pure (some values)
  | p :: pending, values => do
    match ← Prog.query (Ask.settled p) with
    | .error _ => pure none
    | .ok value => promiseAll pending (values ++ [value])

/-- `({ id: o.id, status: o.status, email: customers[i].email })`, which `undefined` lacks. -/
def outOf (o : Order κ) (value : Option (Customer κ)) : Option (Out κ) :=
  value.map fun c => ⟨o.id, o.status, c.email⟩

/-- All loads in one tick, and then one `await` for all of them. -/
def dataloaderSameTick (limit : ℕ) : Variant κ := do
  let orders ← Prog.query (Ask.orders limit)
  let pending ← loadEach orders []
  match ← promiseAll pending [] with
  | none => pure none
  | some customers => pure ((orders.zip customers).mapM fun x => outOf x.1 x.2)

/-- The loop of `dataloaderAcrossTicks`. -/
def loadInTurn : List (Order κ) → List (Out κ) → Variant κ
  | [], out => pure (some out)
  | o :: orders, out => do
    let p ← Prog.query (Ask.load o.customerId)
    match ← Prog.query (Ask.settled p) with
    | .error _ => pure none
    | .ok value =>
      match outOf o value with
      | none => pure none
      | some row => loadInTurn orders (out ++ [row])

/-- Each load is awaited before the next one. -/
def dataloaderAcrossTicks (limit : ℕ) : Variant κ := do
  let orders ← Prog.query (Ask.orders limit)
  loadInTurn orders []

/-! ### The tables -/

namespace Db

variable {db : Db κ} {id : κ}

/-- A key belongs to one row. -/
theorem customer_of_mem {c : Customer κ} (hc : c ∈ db.customers) : db.customer c.id = [c] := by
  obtain ⟨xs, ys, hsplit⟩ := List.append_of_mem hc
  have hnodup := db.primary
  rw [hsplit, List.map_append, List.map_cons, List.nodup_append] at hnodup
  obtain ⟨-, hys, hne⟩ := hnodup
  rw [Db.customer, hsplit, List.filter_append, List.filter_cons_of_pos (by simp)]
  rw [List.filter_eq_nil_iff.mpr, List.filter_eq_nil_iff.mpr]
  · rfl
  · intro c' hc' heq
    rw [decide_eq_true_eq] at heq
    exact (List.nodup_cons.mp hys).1 (heq ▸ List.mem_map_of_mem hc')
  · intro c' hc' heq
    rw [decide_eq_true_eq] at heq
    exact hne _ (List.mem_map_of_mem hc') _ List.mem_cons_self heq

/-- An order has one customer. -/
theorem customer_of_order {o : Order κ} (ho : o ∈ db.orders) :
    ∃ c, db.customer o.customerId = [c] := by
  obtain ⟨c, hc, hid⟩ := List.mem_map.mp (db.foreign o ho)
  exact ⟨c, hid ▸ customer_of_mem hc⟩

omit [DecidableEq κ] in
theorem mem_of_ordersUpTo {limit : ℕ} {o : Order κ} (ho : o ∈ db.ordersUpTo limit) :
    o ∈ db.orders :=
  List.mem_of_mem_take ho

/-- That no id is sent twice makes no difference to the rows. -/
theorem customersIn_eraseDups (ids : List κ) :
    db.customersIn ids.eraseDups = db.customersIn ids := by
  simp only [customersIn, List.mem_eraseDups]

/-- What `byKey` holds for a key that was asked for. -/
theorem toMap_customersIn {ids : List κ} (hid : id ∈ ids) :
    toMap (db.customersIn ids) id = (db.customer id).getLast? := by
  rw [toMap, customersIn, List.filter_filter, customer]
  refine congrArg _ (List.filter_congr fun c _ => ?_)
  by_cases hc : c.id = id
  · simp [hc, hid]
  · simp [hc]

/-- As many rows as there are different keys. -/
theorem length_customersIn {ids : List κ} (hids : ∀ id ∈ ids, id ∈ db.customers.map (·.id)) :
    (db.customersIn ids).length = ids.toFinset.card := by
  have hnodup : ((db.customersIn ids).map (·.id)).Nodup :=
    db.primary.sublist (List.filter_sublist.map _)
  rw [← List.length_map (·.id), ← List.toFinset_card_of_nodup hnodup]
  congr 1
  ext id
  rw [List.mem_toFinset, List.mem_toFinset, customersIn, List.mem_map]
  constructor
  · rintro ⟨c, hc, rfl⟩
    simpa using (List.mem_filter.mp hc).2
  · intro hid
    obtain ⟨c, hc, rfl⟩ := List.mem_map.mp (hids id hid)
    exact ⟨c, List.mem_filter.mpr ⟨hc, by simpa using hid⟩, rfl⟩

end Db

/-! ### The loader of a variant -/

variable {db : Db κ} {w w' : World κ}

omit [DecidableEq κ] in
/-- The loader has been used as `Loader.step` has it, with promises in turn. -/
structure Sound (w : World κ) : Prop where
  reach : Reach Loader.step Memory.init w.mem
  fresh : ∀ i, w.next ≤ i → w.mem.promise i = none

namespace Sound

omit [DecidableEq κ] in
theorem init : Sound (World.init : World κ) := ⟨.refl, fun _ _ => rfl⟩

omit [DecidableEq κ] in
theorem inv (h : Sound w) : Inv w.mem := h.reach.invariant Inv.init fun _ _ _ h hs => h.step hs

omit [DecidableEq κ] in
theorem ticks_eq_zero_iff (h : Sound w) : w.mem.ticks = 0 ↔ w.mem.queue = [] := by
  rw [h.inv.ticks, Bool.toNat_eq_zero, ← Bool.not_eq_true, h.inv.scheduled, not_not]

theorem endTick_of_nil (h : Sound w) (hq : w.mem.queue = []) : w.endTick db = some w :=
  if_pos (h.ticks_eq_zero_iff.mpr hq)

/-- **A batch costs one query**, and settles its loads with their rows. -/
theorem endTick (h : Sound w) (db : Db κ) (hq : w.mem.queue ≠ []) : ∃ w', w.endTick db = some w' ∧
    Sound w' ∧ w'.mem.queue = [] ∧ w'.queries = w.queries + 1 ∧
    w'.rows = w.rows + (db.customersIn (w.mem.queue.map (·.key))).length ∧
    ∀ e ∈ w.mem.queue,
      w'.mem.promise e.promise = some (.resolved (db.customer e.key).getLast?) := by
  have ht : 0 < w.mem.ticks := Nat.pos_of_ne_zero (mt h.ticks_eq_zero_iff.mp hq)
  let m : Memory ℕ κ (Customer κ) String := { w.mem with
    queue := [], scheduled := false, ticks := 0, batches := w.mem.batches ++ [w.mem.queue] }
  -- first the callback of `nextTick`, which flushes the queue as one batch
  have htick : Loader.step w.mem .tick = some m :=
    (if_pos ht).trans (congrArg some (h.inv.flush_eq ht))
  let b := w.mem.batches.length
  let ids := w.mem.queue.map (·.key)
  let r : Answer κ (Customer κ) String := .ok (toMap (db.customersIn ids))
  have hbatch : m.batches[b]? = some w.mem.queue := List.getElem?_concat_length
  have hnone : m.answer b = none := by
    by_contra hne
    exact Nat.lt_irrefl _ (h.inv.asked b hne)
  let m' : Memory ℕ κ (Customer κ) String := { m with
    promise := settleAll r m.promise w.mem.queue
    answer := Function.update m.answer b (some r) }
  -- then the query of the batch, whose answer settles its promises
  have hanswer : Loader.step m (.answer b r) = some m' := by
    unfold Loader.step
    simp only [hbatch, hnone]
    rfl
  have hend : w.endTick db =
      some ({ w with mem := m' }.count (db.customersIn ids).length) := by
    have hlast : m.batches.getLast? = some w.mem.queue := List.getLast?_concat
    have hlen : m.batches.length - 1 = b := by simp [m, b]
    unfold World.endTick
    rw [if_neg ht.ne', htick]
    simp only [Option.bind_eq_bind, Option.bind_some, hlast, hlen, Db.customersIn_eraseDups]
    rw [hanswer]
    rfl
  have hreach := (h.reach.tail htick).tail hanswer
  have hinv := hreach.invariant Inv.init fun _ _ _ h hs => h.step hs
  refine ⟨_, hend, ⟨hreach, fun i hi => ?_⟩, rfl, rfl, rfl, fun e he => ?_⟩
  · exact settleAll_eq_none_iff.mpr (h.fresh i hi)
  -- each entry finds its customer in the map that the query has led to
  · refine (hinv.batched b _ hbatch e he).trans (congrArg some ?_)
    show (((Function.update m.answer b (some r) b).map _).getD _) = _
    rw [Function.update_self]
    exact congrArg Promise.resolved (Db.toMap_customersIn (List.mem_map_of_mem he))

theorem load (h : Sound w) (db : Db κ) (id : κ) : ∃ w', w.answer db (.load id) = some (w.next, w') ∧
    Sound w' ∧ w'.mem.queue = w.mem.queue ++ [⟨id, w.next⟩] ∧ w'.queries = w.queries ∧
    w'.rows = w.rows := by
  have hstep : Loader.step w.mem (.load id w.next) = some (DataLoader.load w.mem id w.next) :=
    if_pos (h.fresh w.next le_rfl)
  refine ⟨{ w with mem := DataLoader.load w.mem id w.next, next := w.next + 1 }, ?_,
    ⟨h.reach.tail hstep, fun i hi => ?_⟩, queue_load, rfl, rfl⟩
  · unfold World.answer
    dsimp only
    rw [hstep]
    rfl
  · have hne : i ≠ w.next := (Nat.lt_of_succ_le hi).ne'
    show (DataLoader.load w.mem id w.next).promise i = none
    rw [promise_load, Function.update_of_ne hne]
    exact h.fresh i (Nat.le_of_succ_le hi)

/-- The promise of a load that has been settled. -/
theorem settled (h : Sound w) (hq : w.mem.queue = []) {p : ℕ} {value : Option (Customer κ)}
    (hp : w.mem.promise p = some (.resolved value)) :
    w.answer db (.settled p) = some (.ok value, w) := by
  unfold World.answer
  rw [h.endTick_of_nil hq]
  simp only [Option.bind_eq_bind, Option.bind_some, hp]
  rfl

end Sound

/-! ### One query for each order -/

theorem run_resolveEach (h : Sound w) (hq : w.mem.queue = []) (db : Db κ)
    {orders : List (Order κ)} (horders : ∀ o ∈ orders, o ∈ db.orders) (out : List (Out κ)) :
    ∃ w', (resolveEach orders out).run (World.answer db) w =
        some (some (out ++ orders.flatMap db.outs), w') ∧
      w'.queries = w.queries + orders.length ∧ w'.rows = w.rows + orders.length := by
  induction orders generalizing w out with
  | nil => exact ⟨w, by simp [resolveEach], rfl, rfl⟩
  | cons o orders ih =>
    obtain ⟨ho, horders⟩ := List.forall_mem_cons.mp horders
    obtain ⟨c, hc⟩ := Db.customer_of_order ho
    -- one query, which finds just the customer of the order
    have hanswer : w.answer db (.customer o.customerId) = some ([c], w.count 1) := by
      unfold World.answer
      dsimp only
      rw [h.endTick_of_nil hq, hc]
      rfl
    have hsound : Sound (w.count 1) := ⟨h.reach, h.fresh⟩
    obtain ⟨w', hrun, hqueries, hrows⟩ := ih hsound hq horders (out ++ [⟨o.id, o.status, c.email⟩])
    refine ⟨w', ?_, ?_, ?_⟩
    · rw [resolveEach, Prog.run_query_bind, hanswer, Option.bind_some, List.head?_cons]
      simpa [Db.outs, hc] using hrun
    · rw [hqueries, List.length_cons]
      exact Nat.add_right_comm ..
    · rw [hrows, List.length_cons]
      exact Nat.add_right_comm ..

/-! ### All loads in one tick -/

theorem run_loadEach (h : Sound w) (db : Db κ) (orders : List (Order κ)) (pending : List ℕ) :
    ∃ w' ps, (loadEach orders pending).run (World.answer db) w = some (pending ++ ps, w') ∧
      Sound w' ∧ w'.queries = w.queries ∧ w'.rows = w.rows ∧
      ∃ es, w'.mem.queue = w.mem.queue ++ es ∧ es.map (·.key) = orders.map (·.customerId) ∧
        es.map (·.promise) = ps := by
  induction orders generalizing w pending with
  | nil => exact ⟨w, [], by simp [loadEach], h, rfl, rfl, [], by simp, rfl, rfl⟩
  | cons o orders ih =>
    -- the load puts the order's customer at the end of the queue, and asks no query
    obtain ⟨w₁, hload, h₁, hqueue₁, hqueries₁, hrows₁⟩ := h.load db o.customerId
    obtain ⟨w', ps, hrun, h', hqueries, hrows, es, hqueue, hkeys, hps⟩ :=
      ih h₁ (pending ++ [w.next])
    refine ⟨w', w.next :: ps, ?_, h', hqueries.trans hqueries₁, hrows.trans hrows₁,
      ⟨o.customerId, w.next⟩ :: es, ?_, ?_, ?_⟩
    · rw [loadEach, Prog.run_query_bind, hload, Option.bind_some, hrun, List.append_assoc]
      rfl
    · rw [hqueue, hqueue₁, List.append_assoc]
      rfl
    · rw [List.map_cons, List.map_cons, hkeys]
    · rw [List.map_cons, hps]

/-- Promises that are settled already. -/
theorem run_promiseAll (h : Sound w) (hq : w.mem.queue = []) {es : List (Entry ℕ κ)}
    (hes : ∀ e ∈ es, w.mem.promise e.promise = some (.resolved (db.customer e.key).getLast?))
    (values : List (Option (Customer κ))) :
    (promiseAll (es.map (·.promise)) values).run (World.answer db) w =
      some (some (values ++ es.map fun e => (db.customer e.key).getLast?), w) := by
  induction es generalizing values with
  | nil => simp [promiseAll]
  | cons e es ih =>
    obtain ⟨he, hes⟩ := List.forall_mem_cons.mp hes
    rw [List.map_cons, promiseAll, Prog.run_query_bind, h.settled hq he, Option.bind_some]
    show (promiseAll _ _).run _ w = _
    rw [ih hes, List.append_assoc]
    rfl

/-- The promises of a batch; the first `await` ends the tick. -/
theorem run_promiseAll_batch (hw : w.endTick db = some w') (h' : Sound w')
    (hq : w'.mem.queue = []) {es : List (Entry ℕ κ)} (hne : es ≠ []) (values) :
    (promiseAll (es.map (·.promise)) values).run (World.answer db) w =
      (promiseAll (es.map (·.promise)) values).run (World.answer db) w' := by
  cases es with
  | nil => exact absurd rfl hne
  | cons e es =>
    have hsame : w.answer db (.settled e.promise) = w'.answer db (.settled e.promise) := by
      unfold World.answer
      rw [hw, h'.endTick_of_nil hq]
    rw [List.map_cons, promiseAll, Prog.run_query_bind, Prog.run_query_bind, hsame]

theorem mapM_outOf {orders : List (Order κ)} (horders : ∀ o ∈ orders, o ∈ db.orders) :
    (orders.zip (orders.map fun o => (db.customer o.customerId).getLast?)).mapM
        (fun x => outOf x.1 x.2) = some (orders.flatMap db.outs) := by
  induction orders with
  | nil => rfl
  | cons o orders ih =>
    obtain ⟨ho, horders⟩ := List.forall_mem_cons.mp horders
    obtain ⟨c, hc⟩ := Db.customer_of_order ho
    rw [List.map_cons, List.zip_cons_cons, List.mapM_cons, ih horders, hc]
    simp [outOf, Db.outs, hc]

/-! ### A load after the other -/

theorem run_loadInTurn (h : Sound w) (hq : w.mem.queue = []) (db : Db κ)
    {orders : List (Order κ)} (horders : ∀ o ∈ orders, o ∈ db.orders) (out : List (Out κ)) :
    ∃ w', (loadInTurn orders out).run (World.answer db) w =
        some (some (out ++ orders.flatMap db.outs), w') ∧
      w'.queries = w.queries + orders.length ∧ w'.rows = w.rows + orders.length := by
  induction orders generalizing w out with
  | nil => exact ⟨w, by simp [loadInTurn], rfl, rfl⟩
  | cons o orders ih =>
    obtain ⟨ho, horders⟩ := List.forall_mem_cons.mp horders
    obtain ⟨c, hc⟩ := Db.customer_of_order ho
    obtain ⟨w₁, hload, h₁, hqueue₁, hqueries₁, hrows₁⟩ := h.load db o.customerId
    rw [hq, List.nil_append] at hqueue₁
    obtain ⟨w₂, hend, h₂, hqueue₂, hqueries₂, hrows₂, hpromise⟩ :=
      h₁.endTick db (by simp [hqueue₁])
    -- the batch is this one load
    have hsettled : w₁.answer db (.settled w.next) = some (.ok (some c), w₂) := by
      have hp : w₂.mem.promise w.next =
          some (.resolved (db.customer o.customerId).getLast?) :=
        hpromise ⟨o.customerId, w.next⟩ (by simp [hqueue₁])
      unfold World.answer
      simp only [hend, Option.bind_eq_bind, Option.bind_some, hp, hc]
      rfl
    have hone : (db.customersIn (w₁.mem.queue.map (·.key))).length = 1 := by
      rw [Db.length_customersIn]
      · simp [hqueue₁]
      · simpa [hqueue₁] using db.foreign o ho
    obtain ⟨w', hrun, hqueries, hrows⟩ := ih h₂ hqueue₂ horders (out ++ [⟨o.id, o.status, c.email⟩])
    refine ⟨w', ?_, ?_, ?_⟩
    · rw [loadInTurn, Prog.run_query_bind, hload, Option.bind_some, Prog.run_query_bind, hsettled,
        Option.bind_some]
      simpa [outOf, Db.outs, hc] using hrun
    · rw [hqueries, hqueries₂, hqueries₁, List.length_cons]
      exact Nat.add_right_comm ..
    · rw [hrows, hrows₂, hone, hrows₁, List.length_cons]
      exact Nat.add_right_comm ..

/-! ### The endpoint -/

theorem answer_orders (db : Db κ) (limit : ℕ) : World.init.answer db (.orders limit) =
    some (db.ordersUpTo limit, World.init.count (db.ordersUpTo limit).length) := by
  unfold World.answer
  dsimp only
  rw [Sound.init.endTick_of_nil rfl]
  rfl

omit [DecidableEq κ] in
theorem Sound.count (n : ℕ) : Sound ((World.init : World κ).count n) :=
  ⟨Sound.init.reach, Sound.init.fresh⟩

theorem run_resolverPerField (db : Db κ) (limit : ℕ) : ∃ w,
    (resolverPerField limit).run (World.answer db) World.init = some (some (db.join limit), w) ∧
      w.queries = 1 + (db.ordersUpTo limit).length ∧
      w.rows = 2 * (db.ordersUpTo limit).length := by
  obtain ⟨w, hrun, hqueries, hrows⟩ := run_resolveEach
    (Sound.count (db.ordersUpTo limit).length) rfl db (fun _ ho => Db.mem_of_ordersUpTo ho) []
  refine ⟨w, ?_, hqueries, ?_⟩
  · rw [resolverPerField, Prog.run_query_bind, answer_orders]
    exact hrun
  · rw [hrows, Nat.two_mul]
    exact congrArg (· + _) (Nat.zero_add _)

theorem run_dataloaderAcrossTicks (db : Db κ) (limit : ℕ) : ∃ w,
    (dataloaderAcrossTicks limit).run (World.answer db) World.init =
        some (some (db.join limit), w) ∧
      w.queries = 1 + (db.ordersUpTo limit).length ∧
      w.rows = 2 * (db.ordersUpTo limit).length := by
  obtain ⟨w, hrun, hqueries, hrows⟩ := run_loadInTurn
    (Sound.count (db.ordersUpTo limit).length) rfl db (fun _ ho => Db.mem_of_ordersUpTo ho) []
  refine ⟨w, ?_, hqueries, ?_⟩
  · rw [dataloaderAcrossTicks, Prog.run_query_bind, answer_orders]
    exact hrun
  · rw [hrows, Nat.two_mul]
    exact congrArg (· + _) (Nat.zero_add _)

theorem run_dataloaderSameTick (db : Db κ) (limit : ℕ) : ∃ w,
    (dataloaderSameTick limit).run (World.answer db) World.init =
        some (some (db.join limit), w) ∧
      w.queries = 1 + min (db.ordersUpTo limit).length 1 ∧
      w.rows = (db.ordersUpTo limit).length +
        ((db.ordersUpTo limit).map (·.customerId)).toFinset.card := by
  have horders : ∀ o ∈ db.ordersUpTo limit, o ∈ db.orders := fun _ ho => Db.mem_of_ordersUpTo ho
  obtain ⟨w₁, ps, hload, h₁, hqueries₁, hrows₁, es, hqueue, hkeys, rfl⟩ :=
    run_loadEach (Sound.count (db.ordersUpTo limit).length) db (db.ordersUpTo limit) []
  replace hqueue : w₁.mem.queue = es := hqueue
  rw [List.nil_append] at hload
  have hvalues : es.map (fun e => (db.customer e.key).getLast?) =
      (db.ordersUpTo limit).map fun o => (db.customer o.customerId).getLast? := by
    have hmap := congrArg (List.map fun key => (db.customer key).getLast?) hkeys
    rwa [List.map_map, List.map_map] at hmap
  -- it is enough that the loads are settled in the end
  have hreturn : ∀ w, (promiseAll (es.map (·.promise)) []).run (World.answer db) w₁ =
        some (some (es.map fun e => (db.customer e.key).getLast?), w) →
      (dataloaderSameTick limit).run (World.answer db) World.init =
        some (some (db.join limit), w) := by
    intro w hall
    rw [dataloaderSameTick, Prog.run_query_bind, answer_orders, Option.bind_some, Prog.run_bind,
      hload, Option.bind_some, Prog.run_bind, hall, Option.bind_some]
    show some ((List.mapM _ ((db.ordersUpTo limit).zip _)), w) = _
    rw [hvalues, mapM_outOf horders]
    rfl
  by_cases hes : es = []
  · -- without orders there is nothing to load
    have hnil : db.ordersUpTo limit = [] := by
      rw [hes] at hkeys
      exact List.map_eq_nil_iff.mp hkeys.symm
    refine ⟨w₁, hreturn w₁ ?_, ?_, ?_⟩
    · subst hes
      rfl
    · rw [hqueries₁, hnil]
      rfl
    · rw [hrows₁, hnil]
      rfl
  · obtain ⟨w, hend, h, hnil, hqueries, hrows, hpromise⟩ :=
      h₁.endTick db (hqueue ▸ hes)
    rw [hqueue] at hpromise hrows
    refine ⟨w, hreturn w ?_, ?_, ?_⟩
    · rw [run_promiseAll_batch hend h hnil hes, run_promiseAll h hnil hpromise, List.nil_append]
    · have hpos : 1 ≤ (db.ordersUpTo limit).length := by
        rw [← List.length_map (·.customerId), ← hkeys, List.length_map]
        exact List.length_pos_iff.mpr hes
      rw [hqueries, hqueries₁, Nat.min_eq_right hpos]
      rfl
    · rw [hrows, hrows₁, hkeys, Db.length_customersIn]
      · exact congrArg (· + _) (Nat.zero_add _)
      · intro id hid
        obtain ⟨o, ho, rfl⟩ := List.mem_map.mp hid
        exact db.foreign o (horders o ho)

/-- **The three variants return the join**, the first `n` orders with their customers.  What
differs is the work of the database: `1 + n` queries, two if there is an order at all, or `1 + n`
again with a loader that is asked for one customer at a time. -/
theorem variants_agree (db : Db κ) (limit : ℕ) : ∃ w₁ w₂ w₃ : World κ,
    (resolverPerField limit).run (World.answer db) World.init = some (some (db.join limit), w₁) ∧
    (dataloaderSameTick limit).run (World.answer db) World.init =
      some (some (db.join limit), w₂) ∧
    (dataloaderAcrossTicks limit).run (World.answer db) World.init =
      some (some (db.join limit), w₃) ∧
    (w₁.queries, w₁.rows) =
      (1 + (db.ordersUpTo limit).length, 2 * (db.ordersUpTo limit).length) ∧
    (w₂.queries, w₂.rows) =
      (1 + min (db.ordersUpTo limit).length 1, (db.ordersUpTo limit).length +
        ((db.ordersUpTo limit).map (·.customerId)).toFinset.card) ∧
    (w₃.queries, w₃.rows) =
      (1 + (db.ordersUpTo limit).length, 2 * (db.ordersUpTo limit).length) := by
  obtain ⟨w₁, hrun₁, hqueries₁, hrows₁⟩ := run_resolverPerField db limit
  obtain ⟨w₂, hrun₂, hqueries₂, hrows₂⟩ := run_dataloaderSameTick db limit
  obtain ⟨w₃, hrun₃, hqueries₃, hrows₃⟩ := run_dataloaderAcrossTicks db limit
  refine ⟨w₁, w₂, w₃, hrun₁, hrun₂, hrun₃, ?_, ?_, ?_⟩
  · rw [hqueries₁, hrows₁]
  · rw [hqueries₂, hrows₂]
  · rw [hqueries₃, hrows₃]

/-- Two orders of one customer, and a customer without orders. -/
def oneCustomer : Db ℕ where
  orders := [⟨1, 7, "paid"⟩, ⟨2, 7, "shipped"⟩]
  customers := [⟨7, "a@example.com"⟩, ⟨8, "b@example.com"⟩]
  primary := by decide
  foreign := by decide

/-- The customer is fetched for each of the orders, or once. -/
theorem variants_agree_oneCustomer : ∃ w₁ w₂ : World ℕ,
    (resolverPerField 10).run (World.answer oneCustomer) World.init =
      some (some [⟨1, "paid", "a@example.com"⟩, ⟨2, "shipped", "a@example.com"⟩], w₁) ∧
    (dataloaderSameTick 10).run (World.answer oneCustomer) World.init =
      some (some [⟨1, "paid", "a@example.com"⟩, ⟨2, "shipped", "a@example.com"⟩], w₂) ∧
    (w₁.queries, w₁.rows) = (3, 4) ∧ (w₂.queries, w₂.rows) = (2, 3) := by
  obtain ⟨w₁, w₂, -, hrun₁, hrun₂, -, hcost₁, hcost₂, -⟩ := variants_agree oneCustomer 10
  exact ⟨w₁, w₂, hrun₁, hrun₂, hcost₁, hcost₂⟩

end DataLoader
end SepLab
