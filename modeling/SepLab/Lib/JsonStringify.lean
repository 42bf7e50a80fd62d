import Mathlib.Data.List.Forall2
import SepLab.Lib.JsonText

/-!
# `JSON.stringify` with a list of properties

With a list of keys in the place of the replacer, ECMAScript prints of every object in a value,
at any depth, the properties that the list names, in the order of the list; arrays are printed
whole.  A property that an object does not have is looked for in `Object.prototype`, whose
properties are functions, which are not printed, but for `__proto__`.

## Main definitions

* `get` — the property of an object.
* `select`, `stringify` — what a list of keys shows of a value, and its text.
* `Like look` — the same value, as far as `look` finds the members of the objects.
* `Same`, `Shown K` — the same up to the order of members, and as far as the keys `K` show it.

## Main results

* `select_obj` — an object, property by property.
* `select_eq_iff` — **two values are shown alike exactly when they agree in all that is shown.**
* `Same.shown` — values that differ in the order of members only are shown alike.
* `Same.of_shown` — and what has no keys but those of the list is shown as a whole.
-/

namespace SepLab
namespace JsonText

open Json

/-- `__proto__` -/
def protoKey : Text :=
  [unit '_', unit '_', unit 'p', unit 'r', unit 'o', unit 't', unit 'o', unit '_', unit '_']

/-- What is printed of `Object.prototype`, if `__proto__` is asked for. -/
def prototype : List (Text × Json) := [(protoKey, .scalar .null)]

/-- The property `k` of an object, its own or the one it inherits. -/
def get (k : Text) (ms : List (Text × Json)) : Option Json :=
  (ms.lookup k).or (if k = protoKey then some (.obj prototype) else none)

/-- An object with the properties that the list names and `look` finds. -/
def pick (K : List Text) (look : Text → Option Json) : Json :=
  .obj (K.filterMap fun k => (look k).map fun v => (k, v))

mutual

/-- What the keys `K` show of a value. -/
def select (K : List Text) : Json → Json
  | .scalar x => .scalar x
  | .str s => .str s
  | .arr xs => .arr (selectAll K xs)
  | .obj ms =>
    pick K fun k => ((selectMembers K ms).lookup k).or
      (if k = protoKey then some (pick K fun k => prototype.lookup k) else none)

/-- `select` on each element. -/
def selectAll (K : List Text) : List Json → List Json
  | [] => []
  | x :: xs => select K x :: selectAll K xs

/-- `select` on each member's value. -/
def selectMembers (K : List Text) : List (Text × Json) → List (Text × Json)
  | [] => []
  | (k, v) :: ms => (k, select K v) :: selectMembers K ms

end

/-- `JSON.stringify(j, K)` -/
def stringify (K : List Text) (j : Json) : Text := (select K j).print

/-! ### Values that are alike -/

/-- The same value, as far as `look` finds the members of the objects. -/
inductive Like (look : Text → List (Text × Json) → Option Json) : Json → Json → Prop
  | scalar (x : Scalar) : Like look (.scalar x) (.scalar x)
  | str (s : Text) : Like look (.str s) (.str s)
  | arr {xs ys : List Json} (h : List.Forall₂ (Like look) xs ys) : Like look (.arr xs) (.arr ys)
  | obj {ms ms' : List (Text × Json)}
      (h : ∀ k, Option.Rel (Like look) (look k ms) (look k ms')) : Like look (.obj ms) (.obj ms')

/-- The same value, up to the order of the members of objects. -/
def Same : Json → Json → Prop := Like fun k ms => ms.lookup k

/-- The same value, as far as one gets by the keys `K`. -/
def Shown (K : List Text) : Json → Json → Prop :=
  Like fun k ms => if k ∈ K then get k ms else none

/-- A property is a member, or `Object.prototype`. -/
theorem get_eq_some {k : Text} {ms : List (Text × Json)} {v : Json} (h : get k ms = some v) :
    (k, v) ∈ ms ∨ v = .obj prototype := by
  rcases Option.or_eq_some_iff.mp h with hmem | ⟨-, hinherited⟩
  · exact Or.inl (mem_of_lookup hmem)
  · split at hinherited
    · exact Or.inr (Option.some_inj.mp hinherited).symm
    · cases hinherited

theorem get_of_lookup {k : Text} {ms : List (Text × Json)} {v : Json}
    (h : ms.lookup k = some v) : get k ms = some v := by
  rw [get, h, Option.some_or]

/-- What `Object.prototype` has, it has itself. -/
theorem lookup_prototype (k : Text) (v : Json) :
    (prototype.lookup k).or (if k = protoKey then some v else none) = prototype.lookup k := by
  by_cases hk : k = protoKey
  · subst hk
    rfl
  · rw [if_neg hk, Option.or_none]

theorem get_prototype (k : Text) : get k prototype = prototype.lookup k := lookup_prototype k _

/-- Induction over the elements and the properties of a value, inherited ones among them. -/
@[elab_as_elim]
theorem ind_get {P : Json → Prop} (scalar : ∀ x, P (.scalar x)) (str : ∀ s, P (.str s))
    (arr : ∀ xs, (∀ x ∈ xs, P x) → P (.arr xs))
    (obj : ∀ ms, (∀ k v, get k ms = some v → P v) → P (.obj ms)) (j : Json) : P j := by
  -- the prototype has no more than `null` in it
  have hproto : P (.obj prototype) := by
    refine obj prototype fun k v hv => ?_
    rw [get_prototype] at hv
    have hmem := mem_of_lookup hv
    rw [prototype, List.mem_singleton, Prod.mk.injEq] at hmem
    rw [hmem.2]
    exact scalar .null
  induction j using Json.ind with
  | scalar x => exact scalar x
  | str s => exact str s
  | arr xs ih => exact arr xs ih
  | obj ms ih =>
    refine obj ms fun k v hv => ?_
    -- a property is a member of the object, or it is the prototype
    rcases get_eq_some hv with hmem | rfl
    · exact ih (k, v) hmem
    · exact hproto

/-! ### What is shown -/

theorem lookup_selectMembers (K : List Text) (k : Text) (ms : List (Text × Json)) :
    (selectMembers K ms).lookup k = (ms.lookup k).map (select K) := by
  induction ms with
  | nil => rfl
  | cons m ms ih =>
    obtain ⟨k', v⟩ := m
    rw [selectMembers, List.lookup_cons, List.lookup_cons, ih]
    split <;> rfl

/-- `Object.prototype` is shown like an object. -/
theorem select_prototype (K : List Text) :
    select K (.obj prototype) = pick K fun k => prototype.lookup k := by
  have hself : selectMembers K prototype = prototype := rfl
  rw [select, hself]
  simp only [lookup_prototype]

/-- **An object is shown property by property.** -/
theorem select_obj (K : List Text) (ms : List (Text × Json)) :
    select K (.obj ms) = pick K fun k => (get k ms).map (select K) := by
  rw [select]
  refine congrArg _ (funext fun k => ?_)
  rw [lookup_selectMembers, get, Option.map_or]
  split
  · rw [Option.map_some, select_prototype]
  · rfl

theorem pick_eq_iff {K : List Text} {f g : Text → Option Json} :
    pick K f = pick K g ↔ ∀ k ∈ K, f k = g k := by
  have hmem : ∀ {f : Text → Option Json} {k : Text} {v : Json},
      (k, v) ∈ K.filterMap (fun k => (f k).map fun v => (k, v)) ↔ k ∈ K ∧ f k = some v := by
    intro f k v
    rw [List.mem_filterMap]
    constructor
    · rintro ⟨k', hk', hv⟩
      obtain ⟨v', hv', heq⟩ := Option.map_eq_some_iff.mp hv
      obtain ⟨rfl, rfl⟩ := Prod.mk.inj heq
      exact ⟨hk', hv'⟩
    · rintro ⟨hk, hv⟩
      exact ⟨k, hk, by rw [hv, Option.map_some]⟩
  constructor
  · intro h k hk
    have hsame := Json.obj.inj h
    refine Option.ext fun v => ?_
    -- an entry of the object that is picked tells what the selector gives for its key
    have hboth : f k = some v ↔ g k = some v := by
      have := hmem (f := f) (k := k) (v := v)
      rw [hsame, hmem] at this
      simpa [hk] using this.symm
    exact hboth
  · intro h
    unfold pick
    refine congrArg _ (List.filterMap_congr fun k hk => ?_)
    rw [h k hk]

/-- An object that has all the properties of the list shows the list. -/
theorem keys_pick {K : List Text} {f : Text → Option Json} {ms : List (Text × Json)}
    (hf : ∀ k ∈ K, f k ≠ none) (h : pick K f = .obj ms) : ms.map Prod.fst = K := by
  rw [← Json.obj.inj h]
  clear h
  induction K with
  | nil => rfl
  | cons k K ih =>
    obtain ⟨v, hv⟩ := Option.ne_none_iff_exists'.mp (hf k List.mem_cons_self)
    rw [List.filterMap_cons, hv, Option.map_some, List.map_cons,
      ih fun k hk => hf k (List.mem_cons_of_mem _ hk)]

theorem selectAll_eq_iff {K : List Text} {xs : List Json}
    (hxs : ∀ x ∈ xs, ∀ y, select K x = select K y ↔ Shown K x y) (ys : List Json) :
    selectAll K xs = selectAll K ys ↔ List.Forall₂ (Shown K) xs ys := by
  induction xs generalizing ys with
  | nil =>
    cases ys with
    | nil => exact ⟨fun _ => .nil, fun _ => rfl⟩
    | cons y ys => exact ⟨fun h => (by cases h), fun h => (by cases h)⟩
  | cons x xs ih =>
    cases ys with
    | nil => exact ⟨fun h => (by cases h), fun h => (by cases h)⟩
    | cons y ys =>
      rw [selectAll, selectAll, List.cons.injEq, List.forall₂_cons, hxs x List.mem_cons_self y,
        ih (fun x hx => hxs x (List.mem_cons_of_mem _ hx)) ys]

/-- **Two values are shown alike exactly when they agree in all that is shown.** -/
theorem select_eq_iff (K : List Text) (a b : Json) : select K a = select K b ↔ Shown K a b := by
  induction a using ind_get generalizing b with
  | scalar x =>
    constructor
    · intro h
      -- only values of one kind are selected to the same value
      cases b with
      | scalar y =>
        obtain rfl := Json.scalar.inj h
        exact .scalar x
      | str s => cases h
      | arr ys => cases h
      | obj ms => cases h
    · rintro ⟨⟩
      rfl
  | str s =>
    constructor
    · intro h
      cases b with
      | scalar y => cases h
      | str s' =>
        obtain rfl := Json.str.inj h
        exact .str s
      | arr ys => cases h
      | obj ms => cases h
    · rintro ⟨⟩
      rfl
  | arr xs ih =>
    constructor
    · intro h
      cases b with
      | scalar y => cases h
      | str s => cases h
      | arr ys => exact .arr ((selectAll_eq_iff ih ys).mp (Json.arr.inj h))
      | obj ms => cases h
    · rintro (_ | _ | hall | _)
      exact congrArg Json.arr ((selectAll_eq_iff ih _).mpr hall)
  | obj ms ih =>
    -- property by property the induction hypothesis applies
    have hprop : ∀ (ms' : List (Text × Json)) (k : Text),
        (get k ms).map (select K) = (get k ms').map (select K) ↔
          Option.Rel (Shown K) (get k ms) (get k ms') := by
      intro ms' k
      cases hv : get k ms with
      | none =>
        cases get k ms' with
        | none => exact ⟨fun _ => .none, fun _ => rfl⟩
        | some w => exact ⟨fun h => (by cases h), fun h => (by cases h)⟩
      | some v =>
        cases get k ms' with
        | none => exact ⟨fun h => (by cases h), fun h => (by cases h)⟩
        | some w =>
          rw [Option.map_some, Option.map_some, Option.some_inj, ih k v hv w]
          exact ⟨.some, fun h => by cases h; assumption⟩
    constructor
    · intro h
      cases b with
      | scalar y => cases h
      | str s => cases h
      | arr ys => cases h
      | obj ms' =>
        rw [select_obj, select_obj, pick_eq_iff] at h
        refine .obj fun k => ?_
        -- a key that is not selected is shown in neither
        by_cases hk : k ∈ K
        · rw [if_pos hk, if_pos hk]
          exact (hprop ms' k).mp (h k hk)
        · rw [if_neg hk, if_neg hk]
          exact .none
    · rintro (_ | _ | _ | hall)
      rw [select_obj, select_obj, pick_eq_iff]
      intro k hk
      have hrel := hall k
      rw [if_pos hk, if_pos hk] at hrel
      exact (hprop _ k).mpr hrel

/-- The text of a value shows what the list shows of it. -/
theorem stringify_eq_iff (K : List Text) (a b : Json) :
    stringify K a = stringify K b ↔ Shown K a b := by
  rw [← select_eq_iff]
  exact print_injective.eq_iff

/-- **Values that differ in the order of members only are shown alike.** -/
theorem Same.shown (K : List Text) {a b : Json} (h : Same a b) : Shown K a b := by
  induction a using Json.ind generalizing b with
  | scalar x =>
    cases h
    exact .scalar x
  | str s =>
    cases h
    exact .str s
  | arr xs ih =>
    obtain _ | _ | hall | _ := h
    refine .arr ?_
    induction hall with
    | nil => exact .nil
    | cons hx _ ih' =>
      exact .cons (ih _ List.mem_cons_self hx) (ih' fun x hxs => ih x (List.mem_cons_of_mem _ hxs))
  | obj ms ih =>
    obtain _ | _ | _ | @⟨ms, ms', hall⟩ := h
    refine .obj fun k => ?_
    split
    · have hrel := hall k
      unfold get
      cases hv : ms.lookup k with
      | none =>
        cases hw : ms'.lookup k with
        | none =>
          -- `__proto__` is no own key in either, so both give the prototype
          split
          · exact .some ((select_eq_iff K _ _).mp rfl)
          · exact .none
        | some w =>
          rw [hv, hw] at hrel
          cases hrel
      | some v =>
        cases hw : ms'.lookup k with
        | none =>
          rw [hv, hw] at hrel
          cases hrel
        | some w =>
          rw [hv, hw] at hrel
          obtain h | _ := hrel
          exact .some (ih (k, v) (mem_of_lookup hv) h)
    · exact .none

/-- All keys of all objects in the value are among `K`. -/
inductive KeysIn (K : List Text) : Json → Prop
  | scalar (x : Scalar) : KeysIn K (.scalar x)
  | str (s : Text) : KeysIn K (.str s)
  | arr {xs : List Json} (h : ∀ x ∈ xs, KeysIn K x) : KeysIn K (.arr xs)
  | obj {ms : List (Text × Json)} (hkeys : ∀ m ∈ ms, m.1 ∈ K) (h : ∀ m ∈ ms, KeysIn K m.2) :
      KeysIn K (.obj ms)

/-- A key that is not in the list is no key of the object. -/
theorem lookup_eq_none_of_keys {K : List Text} {ms : List (Text × Json)} {k : Text}
    (hkeys : ∀ m ∈ ms, m.1 ∈ K) (hk : k ∉ K) : ms.lookup k = none := by
  rw [List.lookup_eq_none_iff]
  intro m hm
  have hne : k ≠ m.1 := fun heq => hk (heq ▸ hkeys m hm)
  simpa using hne

/-- **What has no other keys is shown as a whole.** -/
theorem Same.of_shown {K : List Text} (hproto : protoKey ∉ K) {a b : Json} (ha : KeysIn K a)
    (hb : KeysIn K b) (h : Shown K a b) : Same a b := by
  induction a using Json.ind generalizing b with
  | scalar x =>
    cases h
    exact .scalar x
  | str s =>
    cases h
    exact .str s
  | arr xs ih =>
    obtain _ | _ | hall | _ := h
    obtain _ | _ | ha | _ := ha
    obtain _ | _ | hb | _ := hb
    refine .arr ?_
    induction hall with
    | nil => exact .nil
    | @cons x y xs ys hx _ ih' =>
      refine .cons (ih x List.mem_cons_self (ha x List.mem_cons_self) (hb y List.mem_cons_self) hx)
        (ih' (fun z hz => ih z (List.mem_cons_of_mem _ hz))
          (fun z hz => ha z (List.mem_cons_of_mem _ hz))
          fun z hz => hb z (List.mem_cons_of_mem _ hz))
  | obj ms ih =>
    obtain _ | _ | _ | hall := h
    obtain _ | _ | _ | ⟨hkeys, ha⟩ := ha
    obtain _ | _ | _ | ⟨hkeys', hb⟩ := hb
    refine .obj fun k => ?_
    by_cases hk : k ∈ K
    · have hrel := hall k
      -- no key of the selection is `__proto__`, so only own members are looked up
      have hne : k ≠ protoKey := fun heq => hproto (heq ▸ hk)
      have hget : ∀ ms, get k ms = ms.lookup k := fun ms => by
        rw [get, if_neg hne, Option.or_none]
      rw [if_pos hk, if_pos hk, hget, hget] at hrel
      generalize hv : ms.lookup k = x at hrel ⊢
      generalize hw : List.lookup k _ = y at hrel ⊢
      cases hrel with
      | none => exact .none
      | some h =>
        exact .some (ih _ (mem_of_lookup hv) (ha _ (mem_of_lookup hv)) (hb _ (mem_of_lookup hw)) h)
    -- and a key outside the selection is a member of neither
    · rw [lookup_eq_none_of_keys hkeys hk, lookup_eq_none_of_keys hkeys' hk]
      exact .none

end JsonText
end SepLab
