import Mathlib.Data.List.Lex
import Mathlib.Data.List.Sort
import SepLab.Idempotency.SameMoney
import SepLab.Lib.JsonStringify

/-!
# The fingerprint of a body in `idempotency.js`

`fingerprint` hashes the text that `JSON.stringify` prints of the body with the body's sorted
keys in the place of the replacer.  The list holds at every depth: a key of a nested object that
is not a key of the body as well is not in the text.  `chargeCorrect` runs the statements of the
topic's server with this fingerprint.

## Main definitions

* `Body`, `fingerprint`, `chargeCorrect` — the request bodies and the endpoint.
* `State.Kept` — who is at work for a key finds its own fingerprint there.

## Main results

* `State.server_money` — in every run of the server a key keeps its fingerprint.
* `canonical_eq_iff` — what bodies with one text have in common.
* `fingerprint_exact_iff` — **exactly when the fingerprint tells two bodies apart**, and with it
  `chargeCorrect`.
-/

namespace SepLab
namespace Idempotency

/-! ### A key keeps its fingerprint -/

namespace State

section
variable {K Body F P ι : Type} [DecidableEq ι] [DecidableEq K] [DecidableEq F]

variable {e : Endpoint K Body F P} {ttl : ℕ} {req : ι → Request K Body}
variable {s s' : State ι K F P} {a : Action ι}

/-- Claims are taken over with the same fingerprint only. -/
def Keeps (e : Endpoint K Body F P) : Prop :=
  ∀ excluded row now row', e.onConflict excluded row now = some row' →
    row'.fingerprint = row.fingerprint ∧ row.fingerprint = excluded.fingerprint

omit [DecidableEq ι] [DecidableEq K] in
theorem keeps_server (b : Bodies Body F) : Keeps (server b : Endpoint K Body F ChargePayload) := by
  intro excluded row now row' h
  simp only [server] at h
  split at h
  · next hc =>
    rw [Option.some_inj] at h
    exact h ▸ ⟨rfl, hc.2.2⟩
  · cases h

/-- Whoever has just got the key has written its own fingerprint, or found it there. -/
theorem claim_fingerprint (hkeeps : Keeps e) {i : ι} (hs : s.step e ttl req (.claim i) = some s')
    (hi : s'.phase i = .holding) : ∃ row, (s'.keys (req i).key).committed = some row ∧
      row.fingerprint = e.fingerprint (req i).body := by
  simp only [State.step, State.claim] at hs
  split at hs
  case h_2 => cases hs
  next now hphase =>
  split at hs
  case isFalse => cases hs
  split at hs
  case h_2 =>
    rw [Option.some_inj] at hs
    subst hs
    rw [show (s.enter i .replaying).phase i = .replaying from Function.update_self _ _ _] at hi
    cases hi
  next row hret =>
  rw [Option.some_inj] at hs
  subst hs
  have hrow : ((s.keys.put (req i).key i (some row)).commit i (req i).key).committed =
      some row := by
    unfold Table.commit
    rw [Table.put_self, Row.commit_of_pending Row.pending_put]
  refine ⟨row, hrow, ?_⟩
  -- a new row has the caller's fingerprint, and one that is taken over keeps it by assumption
  split at hret
  · rw [Option.some_inj] at hret
    exact hret ▸ rfl
  · obtain ⟨hnew, hold⟩ := hkeeps _ _ _ _ hret
    exact hnew.trans hold

/-- **A row keeps its fingerprint.** -/
theorem Inv.fingerprint_step (hkeeps : Keeps e) (h : s.Inv e req)
    (hs : s.step e ttl req a = some s') {k : K} {row : KeyRow F P}
    (hrow : (s.keys k).committed = some row) :
    ∃ row', (s'.keys k).committed = some row' ∧ row'.fingerprint = row.fingerprint := by
  have hsame : ∀ {r : Row ι (KeyRow F P)}, r.committed = (s.keys k).committed →
      ∃ row', r.committed = some row' ∧ row'.fingerprint = row.fingerprint :=
    fun hr => ⟨row, hr.trans hrow, rfl⟩
  cases h.effect hs with
  -- the row is the caller's own or was taken over, with the fingerprint it had
  | @win i now row₀ hphase hnone hstate hdone htake =>
    by_cases hk : k = (req i).key
    · subst hk
      have hself : (Function.update s.keys (req i).key (⟨some row₀, none⟩ : Row ι (KeyRow F P))
          (req i).key).committed = _ := congrArg Row.committed (Function.update_self _ _ _)
      exact ⟨row₀, hself, (hkeeps _ _ _ _ (htake row hrow)).1⟩
    · exact hsame (congrArg Row.committed (Function.update_of_ne hk _ _))
  | publish _ _ _ => exact hsame (Table.committed_put k _)
  -- `done` and the response are written to the row, the fingerprint stays
  | @commit i c row₀ hphase hrow₀ hpending =>
    by_cases hk : k = (req i).key
    · subst hk
      rw [hrow, Option.some_inj] at hrow₀
      have hself : (Function.update s.keys (req i).key (⟨some { row₀ with
          state := .done, response := some (e.payload c) }, none⟩ : Row ι (KeyRow F P))
          (req i).key).committed = _ := congrArg Row.committed (Function.update_self _ _ _)
      exact ⟨_, hself, by rw [hrow₀]⟩
    · exact hsame (congrArg Row.committed (Function.update_of_ne hk _ _))
  | crash => exact hsame Row.committed_rollback
  -- nobody else writes a row that others see
  | _ => exact hsame rfl

/-- Who is at work has been so, or has just got the key. -/
theorem Inv.atWork_step (h : s.Inv e req) (hs : s.step e ttl req a = some s') {j : ι}
    (hj : s'.AtWork j) : s.AtWork j ∨ a = .claim j ∧ s'.phase j = .holding := by
  cases h.effect hs with
  | tick d => exact Or.inl hj
  | wait hphase => exact Or.inl hj
  -- only who claims the key begins to work
  | @win i now row hphase hnone hrow hdone htake =>
    by_cases hji : j = i
    · subst hji
      exact Or.inr ⟨rfl, Function.update_self _ _ _⟩
    · exact Or.inl (atWork_of_enter_of_ne hj hji)
  | @insertCharge i c hphase hid hkey =>
    have hi : s.AtWork i := by
      rw [AtWork, hphase]
      trivial
    exact Or.inl (atWork_of_enter_of_atWork hj hi)
  | @publish i c row hphase hnone hrow =>
    have hi : s.AtWork i := by
      rw [AtWork, hphase]
      trivial
    exact Or.inl (atWork_of_enter_of_atWork hj hi)
  | _ => exact Or.inl (atWork_of_enter hj (by simp) (by simp)).2

/-- Who is at work for a key finds its own fingerprint there. -/
def Kept (e : Endpoint K Body F P) (req : ι → Request K Body) (s : State ι K F P) : Prop :=
  ∀ j, s.AtWork j → ∃ row, (s.keys (req j).key).committed = some row ∧
    row.fingerprint = e.fingerprint (req j).body

theorem Kept.step (hkeeps : Keeps e) (hk : s.Kept e req) (h : s.Inv e req)
    (hs : s.step e ttl req a = some s') : s'.Kept e req := by
  intro j hj
  rcases h.atWork_step hs hj with hold | ⟨rfl, hholding⟩
  · obtain ⟨row, hrow, hfp⟩ := hk j hold
    obtain ⟨row', hrow', hsame⟩ := h.fingerprint_step hkeeps hs hrow
    exact ⟨row', hrow', hsame.trans hfp⟩
  · exact claim_fingerprint hkeeps hs hholding

/-- So no work is committed over the row of another body. -/
theorem Kept.ownFingerprint (hk : s.Kept e req) (h : s.Inv e req)
    (hs : s.step e ttl req a = some s') : s.ownFingerprint e req a = true := by
  cases h.effect hs with
  | @commit i c row hphase hrow hpending =>
    obtain ⟨row', hrow', hfp⟩ := hk i (by rw [AtWork, hphase]; trivial)
    simp only [State.ownFingerprint, hrow']
    exact decide_eq_true hfp
  | _ => rfl

/-- **In every run of the server a key keeps its fingerprint**: its charges, and the answers that
report one, have that of their bodies. -/
theorem server_money {b : Bodies Body F} {s : State ι K F ChargePayload}
    (h : Reach (State.step (server b) ttl req) init s) :
    s.Inv (server b) req ∧ s.Money (server b) req := by
  obtain ⟨hinv, -, hmoney⟩ := h.invariant
    (P := fun u => u.Inv (server b) req ∧ u.Kept (server b) req ∧ u.Money (server b) req)
    ⟨.init, fun _ hj => hj.elim, .init⟩ fun u a u' ⟨hinv, hkept, hmoney⟩ hs =>
      ⟨hinv.step hs, hkept.step (keeps_server b) hinv hs,
        hmoney.step hinv hs (hkept.ownFingerprint hinv hs)⟩
  exact ⟨hinv, hmoney⟩

/-- A call with another fingerprint than the charged body is not told of a charge, and its replay
is refused. -/
theorem server_refuses {b : Bodies Body F} {s : State ι K F ChargePayload}
    (h : Reach (State.step (server b) ttl req) init s) {j : ι} {c : Charge K}
    (hc : (j, c) ∈ s.charges) {i : ι} (hkey : c.idemKey = (req i).key)
    (hne : b.fingerprint (req j).body ≠ b.fingerprint (req i).body) :
    (∀ st p, s.phase i ≠ .responded (.charged st p)) ∧
      ∀ deadline s', s.phase i = .replaying →
        State.step (server b) ttl req s (.replay i deadline) = some s' →
          s'.phase i = .responded (.refused 422 none) := by
  obtain ⟨hinv, hmoney⟩ := server_money h
  obtain ⟨row, hrow, hdone, hfp⟩ := hmoney.charges hc
  rw [hkey] at hrow
  constructor
  · intro st p hphase
    obtain ⟨row', hrow', -, hfp'⟩ := hmoney.responded hphase
    rw [hrow, Option.some_inj] at hrow'
    subst hrow'
    exact hne (hfp.symm.trans hfp')
  · intro deadline s' hphase hs
    -- a call that replays has no row of its own, so it sees what is committed
    have hseen : (s.keys (req i).key).seen i = some row :=
      (Row.seen_of_ne (hinv.pending_ne (fun d hd => by rw [hphase] at hd; cases hd))).trans hrow
    have hreplay : (server b : Endpoint K Body F ChargePayload).replay
        (b.fingerprint (req i).body) deadline (some row) = some (.refused 422 none) := by
      unfold Endpoint.replay
      exact if_pos fun hsame => hne (hfp.symm.trans hsame)
    -- and the fingerprints differ, so the answer is a conflict
    simp only [State.step, State.replay, hphase, hseen] at hs
    rw [show (server b : Endpoint K Body F ChargePayload).fingerprint (req i).body =
      b.fingerprint (req i).body from rfl, hreplay] at hs
    obtain rfl := Option.some_inj.mp hs
    exact Function.update_self _ _ _

end

end State

/-! ### The fingerprint -/

open JsonText

/-- A request body: an object, in which no object has a key twice. -/
structure Body where
  members : List (Text × Json)
  distinct : Json.Distinct (.obj members)

namespace Body

/-- The body as a value. -/
def json (a : Body) : Json := .obj a.members

/-- The keys of the body, in its order. -/
def keys (a : Body) : List Text := a.members.map Prod.fst

/-- The text that is hashed; keys are sorted by their code units. -/
def canonical (a : Body) : Text := stringify (a.keys.insertionSort (· ≤ ·)) a.json

end Body

variable {K F ι : Type} [DecidableEq ι] [DecidableEq K] [DecidableEq F]

/-- `fingerprint`, the hash of the canonical text. -/
def fingerprint (sha256 : Text → F) (body : Body) : F := sha256 body.canonical

/-- `chargeCorrect`, with what the database makes of the two fields of the body.  In an answer
`canonical` only orders the keys of the response. -/
def chargeCorrect (sha256 : Text → F) (amountCents : Body → Option ℤ)
    (currency : Body → Option String) : Endpoint K Body F ChargePayload :=
  server ⟨fingerprint sha256, amountCents, currency⟩

variable {a b : Body}

namespace Body

theorem nodup_keys (a : Body) : a.keys.Nodup := by
  obtain _ | _ | _ | ⟨hkeys, -⟩ := a.distinct
  exact hkeys

theorem lookup_eq_none_iff (a : Body) (k : Text) : a.members.lookup k = none ↔ k ∉ a.keys := by
  rw [List.lookup_eq_none_iff, keys, List.mem_map]
  constructor
  · rintro h ⟨m, hm, rfl⟩
    exact absurd (h m hm) (by simp)
  · intro h m hm
    simpa using fun heq : k = m.1 => h ⟨m, hm, heq.symm⟩

/-- The text shows all keys of the body. -/
theorem keys_of_select {K' : List Text} {ms : List (Text × Json)}
    (hK : ∀ k ∈ K', k ∈ a.keys) (h : select K' a.json = .obj ms) : ms.map Prod.fst = K' := by
  rw [json, select_obj] at h
  refine keys_pick (fun k hk hnone => ?_) h
  obtain ⟨v, hv⟩ := Option.ne_none_iff_exists'.mp
    (mt (a.lookup_eq_none_iff k).mp (not_not.mpr (hK k hk)))
  rw [get_of_lookup hv] at hnone
  cases hnone

/-- **What bodies with one text have in common**: the keys, and all that is reached by these. -/
theorem canonical_eq_iff :
    a.canonical = b.canonical ↔ a.keys.Perm b.keys ∧ Shown a.keys a.json b.json := by
  have hmem : ∀ {l : List Text} {k : Text}, k ∈ l.insertionSort (· ≤ ·) ↔ k ∈ l :=
    List.mem_insertionSort _
  have hshown : stringify (a.keys.insertionSort (· ≤ ·)) a.json =
      stringify (a.keys.insertionSort (· ≤ ·)) b.json ↔ Shown a.keys a.json b.json := by
    rw [stringify_eq_iff, Shown, Shown]
    simp only [hmem]
  constructor
  · intro h
    have hselect := Json.print_injective h
    -- the keys of a body can be read back from its canonical text
    have ha := keys_of_select (a := a) (fun k hk => hmem.mp hk) (select_obj _ _)
    have hb := keys_of_select (a := b) (fun k hk => hmem.mp hk)
      (hselect.symm.trans (select_obj _ _))
    have hsort := ha.symm.trans hb
    refine ⟨?_, hshown.mp ?_⟩
    · refine ((List.perm_insertionSort (· ≤ ·) a.keys).symm.trans ?_).trans
        (List.perm_insertionSort (· ≤ ·) b.keys)
      rw [hsort]
    · rw [canonical, canonical, ← hsort] at h
      exact h
  · rintro ⟨hperm, h⟩
    -- the same keys in any order are sorted to the same list
    have hsort : a.keys.insertionSort (· ≤ ·) = b.keys.insertionSort (· ≤ ·) := by
      refine List.Perm.eq_of_sortedLE List.sortedLE_insertionSort List.sortedLE_insertionSort ?_
      exact ((List.perm_insertionSort _ _).trans hperm).trans (List.perm_insertionSort _ _).symm
    rw [canonical, canonical, ← hsort]
    exact hshown.mpr h

/-- Bodies that differ in the order of members only have one text. -/
theorem canonical_of_same (h : Same a.json b.json) : a.canonical = b.canonical := by
  refine canonical_eq_iff.mpr ⟨?_, h.shown a.keys⟩
  obtain _ | _ | _ | hall := h
  refine (List.perm_ext_iff_of_nodup a.nodup_keys b.nodup_keys).mpr fun k => ?_
  have hrel := hall k
  rw [← not_iff_not, ← a.lookup_eq_none_iff, ← b.lookup_eq_none_iff]
  -- a key is a key of both, since its values are related
  cases hv : a.members.lookup k with
  | none =>
    cases hw : b.members.lookup k with
    | none => exact Iff.rfl
    | some w =>
      rw [hv, hw] at hrel
      cases hrel
  | some v =>
    cases hw : b.members.lookup k with
    | none =>
      rw [hv, hw] at hrel
      cases hrel
    | some w => exact iff_of_false (Option.some_ne_none v) (Option.some_ne_none w)

end Body

/-- **Exactly when the fingerprint tells two bodies apart.**  That it is the same for equal bodies
only, and that `chargeCorrect` refuses one of the bodies for a key charged with the other, holds
for two bodies just if they do not differ where no path of top-level keys leads, and nowhere
else. -/
theorem fingerprint_exact_iff {sha256 : Text → F} {amountCents : Body → Option ℤ}
    {currency : Body → Option String}
    (hsha : sha256 a.canonical = sha256 b.canonical → a.canonical = b.canonical) :
    ((fingerprint sha256 a = fingerprint sha256 b ↔ Same a.json b.json) ∧
      (¬ Same a.json b.json → ∀ (ttl : ℕ) (req : ι → Request K Body)
        (s : State ι K F ChargePayload),
        Reach (State.step (chargeCorrect sha256 amountCents currency) ttl req) .init s →
        ∀ j c i, (j, c) ∈ s.charges → c.idemKey = (req i).key → (req j).body = a →
          (req i).body = b →
          (∀ st p, s.phase i ≠ .responded (.charged st p)) ∧
          ∀ deadline s', s.phase i = .replaying →
            State.step (chargeCorrect sha256 amountCents currency) ttl req s
              (.replay i deadline) = some s' →
              s'.phase i = .responded (.refused 422 none))) ↔
      (a.keys.Perm b.keys → Shown a.keys a.json b.json → Same a.json b.json) := by
  have hfp : fingerprint sha256 a = fingerprint sha256 b ↔ a.canonical = b.canonical :=
    ⟨hsha, congrArg sha256⟩
  constructor
  · rintro ⟨hexact, -⟩ hperm hshown
    -- an exact fingerprint tells apart any two bodies that are shown alike
    exact hexact.mp (hfp.mpr (Body.canonical_eq_iff.mpr ⟨hperm, hshown⟩))
  · intro htells
    have hexact : fingerprint sha256 a = fingerprint sha256 b ↔ Same a.json b.json := by
      refine ⟨fun h => ?_, fun h => hfp.mpr (Body.canonical_of_same h)⟩
      obtain ⟨hperm, hshown⟩ := Body.canonical_eq_iff.mp (hfp.mp h)
      exact htells hperm hshown
    refine ⟨hexact, fun hne ttl req s hreach j c i hc hkey ha hb => ?_⟩
    -- the charge of the key has a different fingerprint
    refine State.server_refuses hreach hc hkey fun hsame => hne (hexact.mp ?_)
    rw [← ha, ← hb]
    exact hsame

/-- `amount_cents` -/
def amountKey : Text := ['a', 'm', 'o', 'u', 'n', 't', '_', 'c', 'e', 'n', 't', 's'].map unit

/-- `customer` -/
def customerKey : Text := ['c', 'u', 's', 't', 'o', 'm', 'e', 'r'].map unit

/-- `id` -/
def idKey : Text := ['i', 'd'].map unit

/-- The body `{"amount_cents": n}`. -/
def amountBody (n : Number) : Body where
  members := [(amountKey, .scalar (.number n))]
  distinct := .obj (List.nodup_singleton _) (List.forall_mem_singleton.mpr (.scalar _))

/-- The number `5`. -/
def five : Number :=
  ⟨[unit '5'], ⟨unit '5', rfl, by decide⟩, List.all_eq_true.mp (by decide)⟩

/-- The number `6`. -/
def six : Number :=
  ⟨[unit '6'], ⟨unit '6', rfl, by decide⟩, List.all_eq_true.mp (by decide)⟩

/-- A body without nested keys is told apart from others. -/
theorem fingerprint_exact_iff_flat :
    fingerprint id (amountBody five) = fingerprint id (amountBody six) ↔
      Same (amountBody five).json (amountBody six).json := by
  have hkeys : ∀ n, KeysIn (amountBody five).keys (amountBody n).json := by
    intro n
    refine .obj (fun m hm => ?_) fun m hm => ?_
    · rw [List.mem_singleton.mp hm]
      exact List.mem_singleton_self _
    · rw [List.mem_singleton.mp hm]
      exact .scalar _
  have htold : (amountBody five).keys.Perm (amountBody six).keys →
      Shown (amountBody five).keys (amountBody five).json (amountBody six).json →
      Same (amountBody five).json (amountBody six).json :=
    fun _ h => .of_shown (by decide) (hkeys five) (hkeys six) h
  exact ((@fingerprint_exact_iff ℕ Text (Fin 2) _ _ _ (amountBody five) (amountBody six) id
    (fun _ => none) (fun _ => none) id).mpr htold).1

/-- The body `{"amount_cents": 5, "customer": {"id": n}}`. -/
def customerBody (n : Number) : Body where
  members := [(amountKey, .scalar (.number five)),
    (customerKey, .obj [(idKey, .scalar (.number n))])]
  distinct := by
    have hkeys : [amountKey, customerKey].Nodup := by decide
    refine .obj hkeys (List.forall_mem_cons.mpr ⟨.scalar _, ?_⟩)
    refine List.forall_mem_singleton.mpr (.obj (List.nodup_singleton _) ?_)
    exact List.forall_mem_singleton.mpr (.scalar _)

/-- Two calls with one key and with bodies that name two customers. -/
def twoCustomers (i : Fin 2) : Request ℕ Body :=
  ⟨7, if i.val = 0 then customerBody five else customerBody six⟩

/-- The two bodies have one fingerprint, and the second call is answered with the charge of the
first. -/
theorem fingerprint_nested :
    (¬ ∀ a b : Body, fingerprint id a = fingerprint id b ↔ Same a.json b.json) ∧
      ∃ s : State (Fin 2) ℕ Text ChargePayload,
        Reach (State.step (chargeCorrect id (fun _ => some 5) fun _ => some "usd") 60
          twoCustomers) .init s ∧
        s.phase 1 = .responded (.charged 200 (some ⟨1, 5, "usd", "succeeded"⟩)) := by
  constructor
  · intro h
    have hsame := (h (customerBody five) (customerBody six)).mp (by decide +kernel)
    have htext := (stringify_eq_iff [customerKey, idKey] _ _).mpr (hsame.shown _)
    exact absurd htext (by decide +kernel)
  · have hrun : ((exec (State.step (chargeCorrect id (fun _ => some 5) fun _ => some "usd") 60
        twoCustomers) (.init : State (Fin 2) ℕ Text ChargePayload)
        [.begin 0, .claim 0, .insertCharge 0, .publish 0, .commit 0, .respond 0, .begin 1,
          .claim 1, .replay 1 false]).map fun s => s.phase 1) =
        some (.responded (.charged 200 (some ⟨1, 5, "usd", "succeeded"⟩))) := by decide +kernel
    obtain ⟨s, hs, hobs⟩ := Option.map_eq_some_iff.mp hrun
    exact ⟨s, .of_exec _ hs, hobs⟩

end Idempotency
end SepLab
