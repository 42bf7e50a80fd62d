import Mathlib.Data.Prod.Lex
import SepLab.Lib.StableSort

/-!
# One page of orders, in a deep module and through three layers

The same feature twice. The shallow shape has a service over a repository over a query, each with
an order type of its own and conversions between them; the deep shape sorts references to the
stored orders and converts what is left of them at the end. The checks for an unknown customer and
for a limit of zero are made at different depths.

## Main definitions

* `Shallow.listCustomerOrders` — the three layers, under their names.
* `Deep.Store.customerOrderPage` — the deep module.
* `Agree` — what a caller can tell of the two results is the same.
* `newest` — the key by which orders are listed, the newest first.

## Main results

* `Deep.customerOrderPage_eq`, `Shallow.listCustomerOrders_eq` — what each answers.
* `list_customer_orders_agree` — **the two shapes are indistinguishable**, and the page is the
  head of the stable listing of the customer's orders.
-/

namespace SepLab
namespace Probes

/-! ### The three layers -/

namespace Shallow

/-- `OrderError` of the three layers. -/
inductive OrderError where
  | customerNotFound (customerId : ℕ)
  | invalidLimit (limit : ℕ)
  deriving DecidableEq, Repr

/-- An order as it is stored. -/
structure StoredOrder where
  id : ℕ
  customerId : ℕ
  status : String
  totalCents : ℤ
  createdAt : ℤ
  deriving DecidableEq, Repr

/-- What the layers read. -/
structure Store where
  customers : List ℕ
  orders : List StoredOrder

/-- What the query returns. -/
structure OrderRow where
  id : ℕ
  customerId : ℕ
  status : String
  totalCents : ℤ
  createdAt : ℤ
  deriving DecidableEq, Repr

/-- `From<&StoredOrder> for OrderRow` -/
def OrderRow.from (o : StoredOrder) : OrderRow :=
  ⟨o.id, o.customerId, o.status, o.totalCents, o.createdAt⟩

/-- Rows compared in descending order of the pair of their time and their id. -/
def OrderRow.cmp (a b : OrderRow) : Ordering :=
  (compare b.createdAt a.createdAt).then (compare b.id a.id)

/-- The repository: the customer's rows, the newest first, up to a limit. -/
def selectOrders (store : Store) (customerId limit : ℕ) : Except OrderError (List OrderRow) :=
  if limit = 0 then
    .error (.invalidLimit limit)
  else
    let rows := (store.orders.filter fun o => o.customerId = customerId).map OrderRow.from
    .ok ((sortBy OrderRow.cmp rows).take limit)

/-- The repository: how many orders the customer has. -/
def selectOrderCount (store : Store) (customerId : ℕ) : ℕ :=
  (store.orders.filter fun o => o.customerId = customerId).length

/-- What the repository returns. -/
structure OrderRecord where
  id : ℕ
  customerId : ℕ
  status : String
  totalCents : ℤ
  createdAt : ℤ
  deriving DecidableEq, Repr

/-- `From<OrderRow> for OrderRecord` -/
def OrderRecord.from (r : OrderRow) : OrderRecord :=
  ⟨r.id, r.customerId, r.status, r.totalCents, r.createdAt⟩

/-- The service: the rows as records. -/
def fetchOrders (store : Store) (customerId limit : ℕ) :
    Except OrderError (List OrderRecord) := do
  return (← selectOrders store customerId limit).map OrderRecord.from

/-- The service passes the count on. -/
def countOrders (store : Store) (customerId : ℕ) : ℕ := selectOrderCount store customerId

/-- What the service returns. -/
structure OrderListing where
  id : ℕ
  status : String
  totalCents : ℤ
  createdAt : ℤ
  deriving DecidableEq, Repr

/-- The page of the handler. -/
structure OrderPage where
  items : List OrderListing
  total : ℕ
  deriving DecidableEq, Repr

/-- The handler: the customer is checked, then records and count are fetched. -/
def listCustomerOrders (store : Store) (customerId limit : ℕ) : Except OrderError OrderPage := do
  if customerId ∉ store.customers then
    throw (.customerNotFound customerId)
  let records ← fetchOrders store customerId limit
  let total := countOrders store customerId
  return ⟨records.map fun r => ⟨r.id, r.status, r.totalCents, r.createdAt⟩, total⟩

end Shallow

/-! ### The deep module -/

namespace Deep

/-- `OrderError` of the deep module. -/
inductive OrderError where
  | customerNotFound (customerId : ℕ)
  | invalidLimit (limit : ℕ)
  deriving DecidableEq, Repr

/-- What a caller sees. -/
structure OrderView where
  id : ℕ
  status : String
  totalCents : ℤ
  createdAt : ℤ
  deriving DecidableEq, Repr

/-- The page of the deep module. -/
structure OrderPage where
  items : List OrderView
  total : ℕ
  deriving DecidableEq, Repr

/-- An order of the deep module. -/
structure Order where
  id : ℕ
  customerId : ℕ
  status : String
  totalCents : ℤ
  createdAt : ℤ
  deriving DecidableEq, Repr

/-- The store of the deep module. -/
structure Store where
  customers : List ℕ
  orders : List Order

/-- The store, from the fields of the orders: id, customer, status, total and time. -/
def Store.new (customers : List ℕ) (orders : List (ℕ × ℕ × String × ℤ × ℤ)) : Store where
  customers := customers
  orders := orders.map fun (id, customerId, status, totalCents, createdAt) =>
    ⟨id, customerId, status, totalCents, createdAt⟩

/-- What a caller sees of an order. -/
def toView (o : Order) : OrderView := ⟨o.id, o.status, o.totalCents, o.createdAt⟩

/-- Orders compared in descending order of the pair of their time and their id. -/
def Order.cmp (a b : Order) : Ordering :=
  (compare b.createdAt a.createdAt).then (compare b.id a.id)

/-- The customer's orders, as they are stored. -/
def Store.orderQuery (self : Store) (customerId : ℕ) : List Order :=
  self.orders.filter fun o => o.customerId = customerId

/-- An error for a customer that is not stored. -/
def Store.requireCustomer (self : Store) (customerId : ℕ) : Except OrderError Unit :=
  if customerId ∈ self.customers then .ok () else .error (.customerNotFound customerId)

/-- One page of a customer's orders, newest first, with the total. -/
def Store.customerOrderPage (self : Store) (customerId limit : ℕ) :
    Except OrderError OrderPage := do
  self.requireCustomer customerId
  if limit = 0 then
    throw (.invalidLimit limit)
  let matching := self.orderQuery customerId
  let total := matching.length
  let items := (sortBy Order.cmp matching).take limit
  return ⟨items.map toView, total⟩

end Deep

/-! ### Both shapes over one list of orders -/

open Shallow (StoredOrder)

/-- The fields of an order, as the deep store is built from them. -/
def Shallow.StoredOrder.fields (o : StoredOrder) : ℕ × ℕ × String × ℤ × ℤ :=
  (o.id, o.customerId, o.status, o.totalCents, o.createdAt)

/-- What a caller sees of an order. -/
def Shallow.StoredOrder.view (o : StoredOrder) : Deep.OrderView :=
  ⟨o.id, o.status, o.totalCents, o.createdAt⟩

/-- The orders of a customer, as they are stored. -/
def ordersOf (orders : List StoredOrder) (customerId : ℕ) : List StoredOrder :=
  orders.filter fun o => o.customerId = customerId

/-- The key of an order: the pair of its time and its id, the greatest first. -/
def newest (o : StoredOrder) : (ℤ ×ₗ ℕ)ᵒᵈ := OrderDual.toDual (toLex (o.createdAt, o.id))

/-- The same variant of an error about the same value, or pages with the same fields of the same
orders and the same total. -/
def Agree : Except Shallow.OrderError Shallow.OrderPage → Except Deep.OrderError Deep.OrderPage →
    Prop
  | .error (.customerNotFound i), .error (.customerNotFound j) => i = j
  | .error (.invalidLimit m), .error (.invalidLimit n) => m = n
  | .ok p, .ok q =>
      p.items.map (fun o => (o.id, o.status, o.totalCents, o.createdAt)) =
          q.items.map (fun o => (o.id, o.status, o.totalCents, o.createdAt)) ∧
        p.total = q.total
  | _, _ => False

/-- The comparison of both shapes, on the orders as they are stored. -/
def Shallow.StoredOrder.cmp (a b : StoredOrder) : Ordering :=
  (compare b.createdAt a.createdAt).then (compare b.id a.id)

theorem cmp_ne_gt_iff (a b : StoredOrder) :
    StoredOrder.cmp a b ≠ .gt ↔ newest a ≤ newest b := by
  rw [newest, newest, OrderDual.toDual_le_toDual, Prod.Lex.toLex_le_toLex, StoredOrder.cmp]
  rcases lt_trichotomy b.createdAt a.createdAt with hlt | heq | hgt
  · simp [compare_lt_iff_lt.mpr hlt, hlt]
  · rw [compare_eq_iff_eq.mpr heq]
    simp [heq, compare_gt_iff_gt]
  · simp [compare_gt_iff_gt.mpr hgt, hgt.not_gt, hgt.ne']

/-- The listing of a customer's orders, the newest first. -/
def listing (orders : List StoredOrder) (customerId : ℕ) : List StoredOrder :=
  sortBy StoredOrder.cmp (ordersOf orders customerId)

theorem stablySorts_listing (orders : List StoredOrder) (customerId : ℕ) :
    StablySorts newest (ordersOf orders customerId) (listing orders customerId) :=
  stablySorts_sortBy cmp_ne_gt_iff _

theorem Deep.orderQuery_eq (customers : List ℕ) (orders : List StoredOrder) (customerId : ℕ) :
    (Deep.Store.new customers (orders.map StoredOrder.fields)).orderQuery customerId =
      (ordersOf orders customerId).map fun o =>
        ⟨o.id, o.customerId, o.status, o.totalCents, o.createdAt⟩ := by
  rw [Deep.Store.orderQuery, Deep.Store.new, List.map_map, List.filter_map]
  rfl

/-- **What the deep module answers**: it sorts the stored orders and converts the page. -/
theorem Deep.customerOrderPage_eq (customers : List ℕ) (orders : List StoredOrder)
    (customerId limit : ℕ) :
    (Deep.Store.new customers (orders.map StoredOrder.fields)).customerOrderPage customerId limit =
      if customerId ∉ customers then .error (.customerNotFound customerId)
      else if limit = 0 then .error (.invalidLimit limit)
      else .ok ⟨((listing orders customerId).take limit).map StoredOrder.view,
        (ordersOf orders customerId).length⟩ := by
  have hsort : sortBy Deep.Order.cmp
      ((Deep.Store.new customers (orders.map StoredOrder.fields)).orderQuery customerId) =
        (listing orders customerId).map fun o =>
          ⟨o.id, o.customerId, o.status, o.totalCents, o.createdAt⟩ := by
    rw [Deep.orderQuery_eq]
    exact sortBy_map (fun _ _ => rfl) _
  unfold Deep.Store.customerOrderPage Deep.Store.requireCustomer
  by_cases hc : customerId ∈ customers
  · rw [if_neg (not_not.mpr hc), if_pos (show customerId ∈ (Deep.Store.new _ _).customers from hc)]
    split
    · rfl
    · change Except.ok (Deep.OrderPage.mk ((List.take limit (sortBy Deep.Order.cmp _)).map
        Deep.toView) _) = _
      rw [hsort, Deep.orderQuery_eq, List.length_map, ← List.map_take, List.map_map]
      rfl
  · rw [if_pos hc, if_neg (show customerId ∉ (Deep.Store.new _ _).customers from hc)]
    rfl

/-- **What the three layers answer**: they convert the stored orders and sort the rows. -/
theorem Shallow.listCustomerOrders_eq (customers : List ℕ) (orders : List StoredOrder)
    (customerId limit : ℕ) :
    Shallow.listCustomerOrders ⟨customers, orders⟩ customerId limit =
      if customerId ∉ customers then .error (.customerNotFound customerId)
      else if limit = 0 then .error (.invalidLimit limit)
      else .ok ⟨((listing orders customerId).take limit).map fun o =>
        ⟨o.id, o.status, o.totalCents, o.createdAt⟩, (ordersOf orders customerId).length⟩ := by
  have hsort : sortBy OrderRow.cmp ((ordersOf orders customerId).map OrderRow.from) =
      (listing orders customerId).map OrderRow.from := sortBy_map (fun _ _ => rfl) _
  unfold Shallow.listCustomerOrders
  by_cases hc : customerId ∈ customers
  · rw [if_neg (not_not.mpr hc), if_neg (not_not.mpr hc)]
    unfold fetchOrders selectOrders
    split
    · rfl
    · change Except.ok (OrderPage.mk (((List.take limit (sortBy OrderRow.cmp _)).map
        OrderRecord.from).map _) _) = _
      rw [← ordersOf, hsort, ← List.map_take, List.map_map, List.map_map]
      rfl
  · rw [if_pos hc, if_pos hc]
    rfl

/-- Whatever stable sort a page is made with, it is the head of the listing. -/
theorem Deep.customerOrderPage_of_stablySorts {customers : List ℕ}
    {orders sorted : List StoredOrder} {customerId limit : ℕ} (hc : customerId ∈ customers)
    (hl : limit ≠ 0)
    (h : StablySorts newest (ordersOf orders customerId) sorted) :
    (Deep.Store.new customers (orders.map StoredOrder.fields)).customerOrderPage customerId limit =
      .ok ⟨(sorted.take limit).map StoredOrder.view, (ordersOf orders customerId).length⟩ := by
  rw [Deep.customerOrderPage_eq, if_neg (not_not.mpr hc), if_neg hl,
    h.unique (stablySorts_listing orders customerId)]

/-- **The two shapes are indistinguishable.** Over one list of customers and one list of orders
they answer the same; and a page is the head of the customer's orders in descending order of their
time and id, ties as they are stored, with all of them counted. -/
theorem list_customer_orders_agree (customers : List ℕ) (orders : List StoredOrder)
    (customerId limit : ℕ) :
    Agree (Shallow.listCustomerOrders ⟨customers, orders⟩ customerId limit)
        ((Deep.Store.new customers (orders.map StoredOrder.fields)).customerOrderPage
          customerId limit) ∧
      (customerId ∉ customers →
        (Deep.Store.new customers (orders.map StoredOrder.fields)).customerOrderPage
          customerId limit = .error (.customerNotFound customerId)) ∧
      (customerId ∈ customers → limit = 0 →
        (Deep.Store.new customers (orders.map StoredOrder.fields)).customerOrderPage
          customerId limit = .error (.invalidLimit limit)) ∧
      (customerId ∈ customers → limit ≠ 0 →
        ∃ sorted, StablySorts newest (ordersOf orders customerId) sorted ∧
          (Deep.Store.new customers (orders.map StoredOrder.fields)).customerOrderPage
            customerId limit = .ok ⟨(sorted.take limit).map StoredOrder.view,
              (ordersOf orders customerId).length⟩) := by
  have hsorted := stablySorts_listing orders customerId
  refine ⟨?_, fun hc => ?_, fun hc hl => ?_,
    fun hc hl => ⟨_, hsorted, Deep.customerOrderPage_of_stablySorts hc hl hsorted⟩⟩
  · rw [Deep.customerOrderPage_eq, Shallow.listCustomerOrders_eq]
    split
    · rfl
    · split
      · rfl
      · refine ⟨?_, rfl⟩
        rw [List.map_map, List.map_map]
        rfl
  · rw [Deep.customerOrderPage_eq, if_pos hc]
  · rw [Deep.customerOrderPage_eq, if_neg (not_not.mpr hc), if_pos hl]

/-- Two orders of one time and id stay in the order they are stored in. -/
example : (Deep.Store.new [7] [(1, 7, "paid", 500, 30), (2, 7, "paid", 100, 40),
    (1, 7, "cancelled", 900, 30)]).customerOrderPage 7 2 =
      .ok ⟨[⟨2, "paid", 100, 40⟩, ⟨1, "paid", 500, 30⟩], 3⟩ := by
  decide

end Probes
end SepLab
