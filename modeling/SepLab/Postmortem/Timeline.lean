import SepLab.Lib.Calendar
import SepLab.Lib.KeyOrder
import SepLab.Postmortem.LogLines

/-!
# When the timeline is chronological

The key of an ISO-8601 stamp is made of all its digits, cut and filled up to twenty: fourteen for
the date and the time, and six in which the digits of a numeric offset follow those of the fraction.
A fraction of fewer than six digits lets some digits of the offset in, so the key runs ahead of
the instant by what they spell.

## Main definitions

* `Stamp`, `readStamp` — a stamp, and how its fields are read off a text.
* `Stamp.instant` — the minute and the microsecond of the minute.
* `Offset.spill` — what the digits of the offset add to a fraction of a given length.
* `Chronological` — what is asked of the timeline.
* `InOrder` — no stamp is taken for another one, or chosen before it, because of its spill.

## Main results

* `Stamp.Valid.keyText_lt_iff`, `Stamp.Valid.keyText_inj` — **the order of keys** is that of
  instants, each moved by its spill.
* `sameKeys_iff`, `noneMissed_iff` — when equal keys mean equal instants, and the extremes are
  right.
* `timeline_chronological_iff` — the timeline is chronological just when the lines are in order.
* `inOrder_of_digits_nil` — and they are whenever the offset has no digits.
-/

namespace SepLab
namespace Postmortem

open Digits Calendar KeyOrder

/-! ### Stamps -/

/-- A timestamp; the fraction comes with its separator. -/
structure Stamp where
  year : ℕ
  month : ℕ
  day : ℕ
  sep : Char
  hour : ℕ
  minute : ℕ
  second : ℕ
  fraction : Option (Char × List Char)

/-- The offset after a stamp. -/
inductive Offset
  | none
  | utc
  | numeric (negative colon : Bool) (hours minutes : ℕ)

/-- The last `w` decimal digits of a number. -/
def dec : ℕ → ℕ → List Char
  | 0, _ => []
  | w + 1, n => dec w (n / 10) ++ [Nat.digitChar (n % 10)]

namespace Offset

/-- How an offset is written. -/
def text : Offset → List Char
  | none => []
  | utc => ['Z']
  | numeric negative colon hours minutes =>
    (if negative then '-' else '+') :: (dec 2 hours ++ ((if colon then [':'] else []) ++
      dec 2 minutes))

/-- The minutes that local time is ahead. -/
def ahead : Offset → ℤ
  | none => 0
  | utc => 0
  | numeric negative _ hours minutes =>
    if negative then -(hours * 60 + minutes : ℤ) else hours * 60 + minutes

/-- The digits that the key takes over. -/
def digits : Offset → List Char
  | none => []
  | utc => []
  | numeric _ _ hours minutes => dec 2 hours ++ dec 2 minutes

/-- What the digits of the offset add to a fraction of `n` digits: those that fill it up to six
places. -/
def spill (ω : Offset) (n : ℕ) : ℕ := number 10 (ljust (6 - n) (ω.digits.take (6 - n)))

end Offset

namespace Stamp

/-- The digits of the fraction. -/
def fractionDigits (s : Stamp) : List Char := (s.fraction.map Prod.snd).getD []

/-- The fraction with its separator. -/
def fractionText (s : Stamp) : List Char := (s.fraction.map fun f => f.1 :: f.2).getD []

/-- How ISO 8601 writes a stamp. -/
def text (s : Stamp) (ω : Offset) : List Char :=
  dec 4 s.year ++ '-' :: (dec 2 s.month ++ '-' :: (dec 2 s.day ++ s.sep :: (dec 2 s.hour ++
    ':' :: (dec 2 s.minute ++ ':' :: (dec 2 s.second ++ (s.fractionText ++ ω.text))))))

/-- The date is one of the calendar, and the time one of the day; a minute may have a leap second.
The fraction has at most six digits. -/
def Valid (s : Stamp) : Prop :=
  s.year < 10000 ∧ IsDate s.year s.month s.day ∧ (s.sep = 'T' ∨ s.sep = ' ') ∧ s.hour < 24 ∧
    s.minute < 60 ∧ s.second ≤ 60 ∧
    ∀ f ∈ s.fraction, (f.1 = '.' ∨ f.1 = ',') ∧ f.2.length ≤ 6 ∧ f.2.all Char.isDigit = true

instance (s : Stamp) : Decidable s.Valid := by
  unfold Valid
  infer_instance

/-- The minutes since the beginning of year `0`, in local time. -/
def minutes (s : Stamp) : ℕ := dayNumber s.year s.month s.day * 1440 + s.hour * 60 + s.minute

/-- The microseconds of the fraction. -/
def micros (s : Stamp) : ℕ := number 10 s.fractionDigits * 10 ^ (6 - s.fractionDigits.length)

/-- The microseconds since the beginning of the minute. -/
def inMinute (s : Stamp) : ℕ := s.second * 10 ^ 6 + s.micros

/-- The instant that a stamp denotes. -/
def instant (s : Stamp) (ω : Offset) : ℤ ×ₗ ℕ := toLex ((s.minutes : ℤ) - ω.ahead, s.inMinute)

/-- What the key is ahead of the instant. -/
def spill (s : Stamp) (ω : Offset) : ℕ := ω.spill s.fractionDigits.length

end Stamp

/-- The fields of a stamp, by their places. -/
def readStamp (t : List Char) : Stamp where
  year := number 10 (t.take 4)
  month := number 10 ((t.drop 5).take 2)
  day := number 10 ((t.drop 8).take 2)
  sep := t.getD 10 ' '
  hour := number 10 ((t.drop 11).take 2)
  minute := number 10 ((t.drop 14).take 2)
  second := number 10 ((t.drop 17).take 2)
  fraction :=
    match t.drop 19 with
    | [] => none
    | c :: rest => if c = '.' ∨ c = ',' then some (c, rest.takeWhile Char.isDigit) else none

/-- The text is a stamp of ISO 8601 with this offset. -/
def IsIso (ω : Offset) (t : List Char) : Prop :=
  (readStamp t).Valid ∧ (readStamp t).text ω = t

instance (ω : Offset) (t : List Char) : Decidable (IsIso ω t) :=
  inferInstanceAs (Decidable (_ ∧ _))

/-! ### What is asked of the timeline -/

namespace Sighting

/-- The stamp of a sighting. -/
def read (x : Sighting) : Stamp := readStamp x.stamp

/-- The instant of a sighting. -/
def instant (ω : Offset) (x : Sighting) : ℤ ×ₗ ℕ := x.read.instant ω

end Sighting

/-- The stamps of the line, if there are any, are of ISO 8601 with this offset. -/
def IsoLine (U : Unicode) (ω : Offset) (raw : List Char) : Prop :=
  ∀ hit ∈ recognise U (bodyOf U raw), hit.name = "iso8601" ∧ IsIso ω hit.stamp

/-- The event of a shape tells what its lines do. -/
structure Right (ω : Offset) (xs : List Sighting) (ev : Event) : Prop where
  first : ∃ a ∈ xs, ev.first = a.stamp ∧ Earliest (Sighting.instant ω) xs a
  last : ∃ a ∈ xs, ev.last = a.stamp ∧ Latest (Sighting.instant ω) xs a
  count : ev.count = xs.length
  place : ∃ a ∈ xs, ev.place = a.place ∧ Earliest (Sighting.instant ω) xs a

/-- Every shape has its event, which is right, and the keys are equal where the instants are. -/
structure Chronological (U : Unicode) (ω : Offset) (files : List (List Char × List (List Char))) :
    Prop where
  shapes : ∀ sh, (parseFiles U files State.init).events sh = none ↔
    sh = [] ∨ ofShape sh (sightings U files) = []
  events : ∀ sh ev, (parseFiles U files State.init).events sh = some ev →
    Right ω (ofShape sh (sightings U files)) ev
  keys : ∀ a ∈ sightings U files, ∀ b ∈ sightings U files,
    a.key = b.key ↔ a.instant ω = b.instant ω

/-- No two stamps of a minute are taken for one another because of the digits of the offset, nor is
an earliest or a latest one passed over for another one of its shape. -/
def InOrder (ω : Offset) (xs : List Sighting) : Prop :=
  ∀ a ∈ xs, ∀ b ∈ xs, a.read.minutes = b.read.minutes → b.read.spill ω < a.read.spill ω →
    b.read.inMinute ≠ a.read.inMinute ∧
    b.read.inMinute + b.read.spill ω ≠ a.read.inMinute + a.read.spill ω ∧
    (a.shape = b.shape → a.shape ≠ [] → a.read.inMinute < b.read.inMinute →
      b.read.inMinute + b.read.spill ω < a.read.inMinute + a.read.spill ω →
      (∃ c ∈ xs, c.shape = a.shape ∧ c.instant ω < a.instant ω) ∧
        ∃ c ∈ xs, c.shape = a.shape ∧ b.instant ω < c.instant ω)

instance (ω : Offset) (xs : List Sighting) : Decidable (InOrder ω xs) := by
  unfold InOrder
  infer_instance

/-! ### Digits -/

theorem number_append (b : ℕ) (cs ds : List Char) :
    number b (cs ++ ds) = number b cs * b ^ ds.length + number b ds := by
  unfold number
  rw [List.map_append, value_append, List.length_map]

theorem number_replicate_zero (n : ℕ) : number 10 (List.replicate n '0') = 0 := by
  induction n with
  | zero => rfl
  | succ n ih =>
    rw [List.replicate_succ', number_append, ih, Nat.zero_mul]
    rfl

/-- A digit is as far behind the `0` as it counts. -/
theorem toNat_of_isDigit {c : Char} (h : c.isDigit = true) :
    c.toNat = 48 + digitCode c ∧ digitCode c < 10 := by
  rw [digitCode_of_isDigit h]
  simp only [Char.isDigit, Bool.and_eq_true, decide_eq_true_eq, ge_iff_le,
    UInt32.le_iff_toNat_le] at h
  have hzero : '0'.val.toNat = 48 := rfl
  have hnine : '9'.val.toNat = 57 := rfl
  have hcode : c.toNat = c.val.toNat := rfl
  omega

theorem number_lt {cs : List Char} (h : ∀ c ∈ cs, c.isDigit = true) :
    number 10 cs < 10 ^ cs.length := by
  have hlt : value 10 (cs.map digitCode) < 10 ^ (cs.map digitCode).length := by
    refine value_lt (by decide) fun d hd => ?_
    obtain ⟨c, hc, rfl⟩ := List.mem_map.mp hd
    exact (toNat_of_isDigit (h c hc)).2
  rwa [List.length_map] at hlt

@[simp] theorem length_dec (w n : ℕ) : (dec w n).length = w := by
  induction w generalizing n with
  | zero => rfl
  | succ w ih => rw [dec, List.length_append, ih, List.length_singleton]

theorem isDigit_of_mem_dec {w n : ℕ} {c : Char} (h : c ∈ dec w n) : c.isDigit = true := by
  have hdigit : ∀ d < 10, (Nat.digitChar d).isDigit = true := by decide
  induction w generalizing n with
  | zero => cases h
  | succ w ih =>
    rcases List.mem_append.mp h with h | h
    · exact ih h
    · obtain rfl := List.mem_singleton.mp h
      exact hdigit _ (Nat.mod_lt _ (by decide))

/-- The digits of a number spell it, up to the digits that are cut off. -/
theorem number_dec (w n : ℕ) : number 10 (dec w n) = n % 10 ^ w := by
  have hcode : ∀ d < 10, number 10 [Nat.digitChar d] = d := by decide
  induction w generalizing n with
  | zero => rw [pow_zero, Nat.mod_one]; rfl
  | succ w ih =>
    rw [dec, number_append, ih, hcode _ (Nat.mod_lt _ (by decide)), List.length_singleton, pow_one,
      pow_succ', Nat.mod_mul]
    ring

/-- **Texts of as many digits** are ordered as their numbers are. -/
theorem lt_iff_number_lt {cs ds : List Char} (hlen : cs.length = ds.length)
    (hc : ∀ c ∈ cs, c.isDigit = true) (hd : ∀ c ∈ ds, c.isDigit = true) :
    cs < ds ↔ number 10 cs < number 10 ds := by
  induction cs generalizing ds with
  | nil =>
    obtain rfl := List.length_eq_zero_iff.mp hlen.symm
    simp
  | cons c cs ih =>
    cases ds with
    | nil => cases hlen
    | cons d ds =>
      have hlen' : cs.length = ds.length := Nat.succ.inj hlen
      have hcs : ∀ x ∈ cs, x.isDigit = true := fun x hx => hc x (List.mem_cons_of_mem c hx)
      have hds : ∀ x ∈ ds, x.isDigit = true := fun x hx => hd x (List.mem_cons_of_mem d hx)
      obtain ⟨hcode, hcsmall⟩ := toNat_of_isDigit (hc c List.mem_cons_self)
      obtain ⟨hdode, hdsmall⟩ := toNat_of_isDigit (hd d List.mem_cons_self)
      have hlt : c < d ↔ digitCode c < digitCode d := by
        rw [Char.lt_def, UInt32.lt_iff_toNat_lt]
        have hc' : c.val.toNat = c.toNat := rfl
        have hd' : d.val.toNat = d.toNat := rfl
        omega
      have heq : c = d ↔ digitCode c = digitCode d := by
        rw [← Char.toNat_inj]
        omega
      have hplace : ∀ (x : Char) (xs : List Char), number 10 (x :: xs) =
          place (fun _ => 10 ^ xs.length) (digitCode x) (number 10 xs) := by
        intro x xs
        rw [place_const, ← List.singleton_append, number_append]
        rfl
      rw [List.cons_lt_cons_iff, hplace, hplace, hlen', ih hlen' hcs hds, hlt, heq]
      have hrest : number 10 cs < 10 ^ ds.length := hlen' ▸ number_lt hcs
      exact (@place_lt_iff (fun _ => 10 ^ ds.length) _ _ _ _ hrest (number_lt hds)).symm

/-! ### The key of a stamp -/

theorem digitsOnly_append (s t : List Char) : digitsOnly (s ++ t) = digitsOnly s ++ digitsOnly t :=
  List.filter_append ..

theorem digitsOnly_cons_of_not {c : Char} (h : c.isDigit = false) (s : List Char) :
    digitsOnly (c :: s) = digitsOnly s := List.filter_cons_of_neg (by simp [h])

theorem digitsOnly_of_digits {s : List Char} (h : ∀ c ∈ s, c.isDigit = true) : digitsOnly s = s :=
  List.filter_eq_self.mpr h

@[simp] theorem digitsOnly_dec (w n : ℕ) : digitsOnly (dec w n) = dec w n :=
  digitsOnly_of_digits fun _ => isDigit_of_mem_dec

/-- Neither a `T` nor a blank is a digit. -/
theorem digitsOnly_map (s : List Char) :
    digitsOnly (s.map fun c => if c = 'T' then ' ' else c) = digitsOnly s := by
  induction s with
  | nil => rfl
  | cons c s ih =>
    rw [List.map_cons]
    by_cases hc : c = 'T'
    · subst hc
      rw [if_pos rfl, digitsOnly_cons_of_not (by decide), digitsOnly_cons_of_not (by decide), ih]
    · rw [if_neg hc]
      unfold digitsOnly at ih ⊢
      rw [List.filter_cons, List.filter_cons, ih]

theorem Offset.digitsOnly_text (ω : Offset) : digitsOnly ω.text = ω.digits := by
  cases ω with
  | none => rfl
  | utc => rfl
  | numeric negative colon hours minutes =>
    unfold Offset.text Offset.digits
    rw [digitsOnly_cons_of_not (by cases negative <;> rfl), digitsOnly_append, digitsOnly_append,
      digitsOnly_dec, digitsOnly_dec]
    cases colon <;> rfl

theorem Offset.isDigit_of_mem_digits {ω : Offset} {c : Char} (h : c ∈ ω.digits) :
    c.isDigit = true := by
  rw [← ω.digitsOnly_text] at h
  exact (List.mem_filter.mp h).2

namespace Stamp

variable {s : Stamp} {ω : Offset}

theorem Valid.fractionDigits (h : s.Valid) :
    s.fractionDigits.length ≤ 6 ∧ (∀ c ∈ s.fractionDigits, c.isDigit = true) ∧
      digitsOnly s.fractionText = s.fractionDigits := by
  obtain ⟨-, -, -, -, -, -, hfraction⟩ := h
  unfold Stamp.fractionDigits fractionText
  cases hf : s.fraction with
  | none => exact ⟨by decide, fun c hc => (by cases hc), rfl⟩
  | some f =>
    obtain ⟨hsep, hlen, hdigits⟩ := hfraction f hf
    have hdigits : ∀ c ∈ f.2, c.isDigit = true := List.all_eq_true.mp hdigits
    refine ⟨hlen, hdigits, ?_⟩
    have hno : f.1.isDigit = false := by
      rcases hsep with h | h
      · rw [h]; rfl
      · rw [h]; rfl
    change digitsOnly (f.1 :: f.2) = f.2
    rw [digitsOnly_cons_of_not hno, digitsOnly_of_digits hdigits]

/-- The digits of the date and the time. -/
def clockDigits (s : Stamp) : List Char :=
  dec 4 s.year ++ dec 2 s.month ++ dec 2 s.day ++ dec 2 s.hour ++ dec 2 s.minute ++ dec 2 s.second

/-- All digits of a stamp. -/
theorem Valid.digitsOnly_text (h : s.Valid) (ω : Offset) :
    digitsOnly (s.text ω) = s.clockDigits ++ (s.fractionDigits ++ ω.digits) := by
  obtain ⟨-, -, hfraction⟩ := h.fractionDigits
  have hsep : s.sep.isDigit = false := by
    obtain ⟨-, -, hsep, -⟩ := h
    rcases hsep with h | h
    · rw [h]; rfl
    · rw [h]; rfl
  have hdash : '-'.isDigit = false := rfl
  have hcolon : ':'.isDigit = false := rfl
  unfold text clockDigits
  simp only [digitsOnly_append, digitsOnly_cons_of_not hdash, digitsOnly_cons_of_not hcolon,
    digitsOnly_cons_of_not hsep, digitsOnly_dec, hfraction, ω.digitsOnly_text, List.append_assoc]

/-- The text of the key. -/
def keyText (s : Stamp) (ω : Offset) : List Char :=
  s.clockDigits ++ (s.fractionDigits ++ ljust (6 - s.fractionDigits.length)
    (ω.digits.take (6 - s.fractionDigits.length)))

theorem length_clockDigits (s : Stamp) : s.clockDigits.length = 14 := by
  simp [clockDigits]

/-- **The key** cuts and fills the digits after those of the date and the time. -/
theorem Valid.ljust_take (h : s.Valid) (ω : Offset) :
    ljust 20 ((digitsOnly (s.text ω)).take 20) = s.keyText ω := by
  obtain ⟨hlen, -, -⟩ := h.fractionDigits
  have hclock := s.length_clockDigits
  rw [h.digitsOnly_text]
  unfold keyText
  generalize s.clockDigits = cs at hclock
  generalize s.fractionDigits = fs at hlen
  generalize ω.digits = os
  have htake : (cs ++ (fs ++ os)).take 20 = cs ++ (fs ++ os.take (6 - fs.length)) := by
    rw [List.take_append, List.take_of_length_le (by omega), hclock, List.take_append,
      List.take_of_length_le hlen]
  have hcount : 20 - (cs ++ (fs ++ os.take (6 - fs.length))).length =
      6 - fs.length - (os.take (6 - fs.length)).length := by
    rw [List.length_append, List.length_append, hclock]
    omega
  rw [htake, ljust, hcount, ljust, List.append_assoc, List.append_assoc]

theorem Valid.isDigit_of_mem_keyText (h : s.Valid) {c : Char} (hc : c ∈ s.keyText ω) :
    c.isDigit = true := by
  obtain ⟨-, hfraction, -⟩ := h.fractionDigits
  have hclock : ∀ c ∈ s.clockDigits, c.isDigit = true := by
    intro c hc
    unfold clockDigits at hc
    simp only [List.mem_append] at hc
    rcases hc with ((((hc | hc) | hc) | hc) | hc) | hc
    all_goals exact isDigit_of_mem_dec hc
  unfold keyText ljust at hc
  rcases List.mem_append.mp hc with hc | hc
  · exact hclock c hc
  rcases List.mem_append.mp hc with hc | hc
  · exact hfraction c hc
  rcases List.mem_append.mp hc with hc | hc
  · exact Offset.isDigit_of_mem_digits (List.mem_of_mem_take hc)
  · obtain rfl := List.eq_of_mem_replicate hc
    rfl

theorem Valid.length_keyText (h : s.Valid) : (s.keyText ω).length = 20 := by
  obtain ⟨hlen, -, -⟩ := h.fractionDigits
  unfold keyText ljust
  rw [List.length_append, List.length_append, List.length_append, List.length_replicate,
    s.length_clockDigits, List.length_take]
  omega

/-- What the digits of the date and the time spell. -/
theorem Valid.number_clockDigits (h : s.Valid) : number 10 s.clockDigits =
    ((((s.year * 100 + s.month) * 100 + s.day) * 100 + s.hour) * 100 + s.minute) * 100 +
      s.second := by
  obtain ⟨hyear, hdate, -, hhour, hminute, hsecond, -⟩ := h
  obtain ⟨hmonth, hday⟩ := hdate.le
  have hfour : (10 : ℕ) ^ 4 = 10000 := rfl
  have htwo : (10 : ℕ) ^ 2 = 100 := rfl
  unfold clockDigits
  simp only [number_append, number_dec, length_dec, hfour, htwo]
  rw [Nat.mod_eq_of_lt hyear, Nat.mod_eq_of_lt (by omega), Nat.mod_eq_of_lt (by omega),
    Nat.mod_eq_of_lt (by omega), Nat.mod_eq_of_lt (by omega), Nat.mod_eq_of_lt (by omega)]

/-- What fills the fraction up has the places that are left. -/
theorem length_fill (ω : Offset) (n : ℕ) : (ljust n (ω.digits.take n)).length = n := by
  unfold ljust
  rw [List.length_append, List.length_replicate, List.length_take]
  omega

/-- **What the key spells**: the date, the time, and the fraction moved by the spill. -/
theorem Valid.number_keyText (h : s.Valid) (ω : Offset) : number 10 (s.keyText ω) =
    number 10 s.clockDigits * 10 ^ 6 + (s.micros + s.spill ω) := by
  obtain ⟨hlen, -, -⟩ := h.fractionDigits
  have hsix : s.fractionDigits.length + (6 - s.fractionDigits.length) = 6 := by omega
  unfold keyText micros spill Offset.spill
  rw [number_append, number_append, List.length_append, length_fill, hsix]

/-- The fraction and the spill stay in their second. -/
theorem Valid.micros_add_spill_lt (h : s.Valid) (ω : Offset) :
    s.micros + s.spill ω < 10 ^ 6 := by
  obtain ⟨hlen, hfraction, -⟩ := h.fractionDigits
  have hsix : s.fractionDigits.length + (6 - s.fractionDigits.length) = 6 := by omega
  have hdigits : ∀ c ∈ s.fractionDigits ++ ljust (6 - s.fractionDigits.length)
      (ω.digits.take (6 - s.fractionDigits.length)), c.isDigit = true := fun c hc =>
    h.isDigit_of_mem_keyText (List.mem_append_right _ hc)
  have hlt := number_lt hdigits
  rwa [number_append, List.length_append, length_fill, hsix] at hlt

/-- Hours, minutes and seconds put after dates that are in the order of their days. -/
theorem clock_iff {P P' D D' h h' m m' c c' : ℕ} (hlt : P < P' ↔ D < D') (heq : P = P' ↔ D = D')
    (hhour : h < 24) (hhour' : h' < 24) (hminute : m < 60) (hminute' : m' < 60) (hsecond : c ≤ 60)
    (hsecond' : c' ≤ 60) :
    (((P * 100 + h) * 100 + m) * 100 + c < ((P' * 100 + h') * 100 + m') * 100 + c' ↔
      D * 1440 + h * 60 + m < D' * 1440 + h' * 60 + m' ∨
        D * 1440 + h * 60 + m = D' * 1440 + h' * 60 + m' ∧ c < c') ∧
    (((P * 100 + h) * 100 + m) * 100 + c = ((P' * 100 + h') * 100 + m') * 100 + c' ↔
      D * 1440 + h * 60 + m = D' * 1440 + h' * 60 + m' ∧ c = c') := by
  constructor
  · omega
  · omega

/-- **The order of what is packed** into the digits of the date and the time is that of minutes and
seconds. -/
theorem Valid.packed_iff {s' : Stamp} (h : s.Valid) (h' : s'.Valid) :
    (number 10 s.clockDigits < number 10 s'.clockDigits ↔
      s.minutes < s'.minutes ∨ s.minutes = s'.minutes ∧ s.second < s'.second) ∧
    (number 10 s.clockDigits = number 10 s'.clockDigits ↔
      s.minutes = s'.minutes ∧ s.second = s'.second) := by
  rw [h.number_clockDigits, h'.number_clockDigits]
  obtain ⟨-, hdate, -, hhour, hminute, hsecond, -⟩ := h
  obtain ⟨-, hdate', -, hhour', hminute', hsecond', -⟩ := h'
  have hlt := dayNumber_lt_iff hdate hdate'
  have heq := dayNumber_inj hdate hdate'
  obtain ⟨hmonth, hday⟩ := hdate.le
  obtain ⟨hmonth', hday'⟩ := hdate'.le
  -- first the dates, then the minutes of the day
  refine clock_iff ?_ ?_ hhour hhour' hminute hminute' hsecond hsecond'
  · rw [hlt]
    omega
  · rw [heq]
    omega

/-- **The order of keys** is that of instants, each moved by its spill. -/
theorem Valid.keyText_lt_iff {s' : Stamp} (h : s.Valid) (h' : s'.Valid) (ω : Offset) :
    s.keyText ω < s'.keyText ω ↔ s.minutes < s'.minutes ∨
      s.minutes = s'.minutes ∧ s.inMinute + s.spill ω < s'.inMinute + s'.spill ω := by
  rw [lt_iff_number_lt (h.length_keyText.trans h'.length_keyText.symm)
    (fun _ => h.isDigit_of_mem_keyText) (fun _ => h'.isDigit_of_mem_keyText),
    h.number_keyText, h'.number_keyText]
  obtain ⟨hlt, heq⟩ := h.packed_iff h'
  have hbound := h.micros_add_spill_lt ω
  have hbound' := h'.micros_add_spill_lt ω
  unfold inMinute
  omega

theorem Valid.keyText_inj {s' : Stamp} (h : s.Valid) (h' : s'.Valid) (ω : Offset) :
    s.keyText ω = s'.keyText ω ↔
      s.minutes = s'.minutes ∧ s.inMinute + s.spill ω = s'.inMinute + s'.spill ω := by
  have hlt := h.keyText_lt_iff h' ω
  have hgt := h'.keyText_lt_iff h ω
  have hboth : s.keyText ω = s'.keyText ω ↔
      ¬ s.keyText ω < s'.keyText ω ∧ ¬ s'.keyText ω < s.keyText ω := by
    rw [not_lt, not_lt, and_comm]
    exact le_antisymm_iff
  rw [hboth, hlt, hgt]
  omega

theorem instant_lt_iff {s' : Stamp} (ω : Offset) : s.instant ω < s'.instant ω ↔
    s.minutes < s'.minutes ∨ s.minutes = s'.minutes ∧ s.inMinute < s'.inMinute := by
  unfold instant
  rw [Prod.Lex.toLex_lt_toLex]
  dsimp only
  omega

theorem instant_inj {s' : Stamp} (ω : Offset) : s.instant ω = s'.instant ω ↔
    s.minutes = s'.minutes ∧ s.inMinute = s'.inMinute := by
  unfold instant
  rw [EmbeddingLike.apply_eq_iff_eq, Prod.mk.injEq]
  omega

end Stamp

/-! ### The stamps of the lines -/

/-- What is seen of a line is a stamp with its key. -/
structure Sighting.Iso (ω : Offset) (x : Sighting) : Prop where
  valid : x.read.Valid
  key : x.key = toLex (1, x.read.keyText ω)

variable {U : Unicode} {ω : Offset}

/-- The recogniser of ISO 8601 makes its key of the digits. -/
theorem key_of_recognise {body : List Char} {hit : Hit} (h : recognise U body = some hit)
    (hname : hit.name = "iso8601") :
    hit.key = toLex (1, ljust 20 ((digitsOnly hit.stamp).take 20)) := by
  obtain ⟨r, hr, hm⟩ := List.exists_of_findSome?_eq_some h
  obtain ⟨m, -, rfl⟩ := Option.map_eq_some_iff.mp hm
  have hkey : r.2.2 = isoKey := by
    have hname : r.1 = "iso8601" := hname
    -- the others have other names
    rcases List.mem_cons.mp hr with rfl | hr
    · rfl
    rcases List.mem_cons.mp hr with rfl | hr
    · have hname : "common-log" = "iso8601" := hname
      exact absurd hname (by decide)
    rcases List.mem_cons.mp hr with rfl | hr
    · have hname : "syslog" = "iso8601" := hname
      exact absurd hname (by decide)
    · cases hr
  dsimp only
  rw [hkey]
  unfold isoKey
  dsimp only
  rw [digitsOnly_map]

theorem iso_of_mem_sightings {files : List (List Char × List (List Char))}
    (h : ∀ file ∈ files, ∀ raw ∈ file.2, IsoLine U ω raw) {x : Sighting}
    (hx : x ∈ sightings U files) : x.Iso ω := by
  obtain ⟨file, hfile, hx⟩ := List.mem_flatMap.mp hx
  obtain ⟨⟨raw, lineno⟩, hraw, hx⟩ := List.mem_filterMap.mp hx
  obtain ⟨hit, hhit, rfl⟩ := Option.map_eq_some_iff.mp hx
  obtain ⟨hname, hvalid, htext⟩ := h file hfile raw (List.fst_mem_of_mem_zipIdx hraw) hit hhit
  refine ⟨hvalid, ?_⟩
  have hkey := hvalid.ljust_take ω
  rw [htext] at hkey
  change hit.key = _
  rw [key_of_recognise hhit hname, hkey]
  rfl

namespace Sighting

variable {a b : Sighting}

theorem Iso.key_lt_iff (ha : a.Iso ω) (hb : b.Iso ω) : a.key < b.key ↔
    a.read.minutes < b.read.minutes ∨ a.read.minutes = b.read.minutes ∧
      a.read.inMinute + a.read.spill ω < b.read.inMinute + b.read.spill ω := by
  rw [ha.key, hb.key, Prod.Lex.toLex_lt_toLex, ← ha.valid.keyText_lt_iff hb.valid]
  simp

theorem Iso.key_inj (ha : a.Iso ω) (hb : b.Iso ω) : a.key = b.key ↔
    a.read.minutes = b.read.minutes ∧
      a.read.inMinute + a.read.spill ω = b.read.inMinute + b.read.spill ω := by
  rw [ha.key, hb.key, ← ha.valid.keyText_inj hb.valid]
  simp

/-- The second stamp is later, and has the smaller key. -/
def Inverted (ω : Offset) (a b : Sighting) : Prop :=
  a.read.minutes = b.read.minutes ∧ a.read.inMinute < b.read.inMinute ∧
    b.read.inMinute + b.read.spill ω < a.read.inMinute + a.read.spill ω

theorem Iso.inverted_iff (ha : a.Iso ω) (hb : b.Iso ω) :
    Inverted ω a b ↔ a.instant ω < b.instant ω ∧ b.key < a.key := by
  rw [hb.key_lt_iff ha, Sighting.instant, Sighting.instant, Stamp.instant_lt_iff]
  unfold Inverted
  omega

end Sighting

variable {xs : List Sighting}

/-- The keys are equal where the instants are. -/
def SameKeys (ω : Offset) (xs : List Sighting) : Prop :=
  ∀ a ∈ xs, ∀ b ∈ xs, a.key = b.key ↔ a.instant ω = b.instant ω

/-- **When the keys are equal where the instants are.** -/
theorem sameKeys_iff (hiso : ∀ x ∈ xs, x.Iso ω) : SameKeys ω xs ↔
    ∀ a ∈ xs, ∀ b ∈ xs, a.read.minutes = b.read.minutes → b.read.spill ω < a.read.spill ω →
      b.read.inMinute ≠ a.read.inMinute ∧
      b.read.inMinute + b.read.spill ω ≠ a.read.inMinute + a.read.spill ω := by
  have hpair : ∀ a ∈ xs, ∀ b ∈ xs, (a.key = b.key ↔ a.instant ω = b.instant ω) ↔
      (a.read.minutes = b.read.minutes → (a.read.inMinute + a.read.spill ω =
        b.read.inMinute + b.read.spill ω ↔ a.read.inMinute = b.read.inMinute)) := by
    intro a ha b hb
    rw [(hiso a ha).key_inj (hiso b hb), Sighting.instant, Sighting.instant, Stamp.instant_inj]
    exact and_congr_right_iff
  constructor
  · intro h a ha b hb hminutes hspill
    have hsame := (hpair a ha b hb).mp (h a ha b hb) hminutes
    omega
  · intro h a ha b hb
    refine (hpair a ha b hb).mpr fun hminutes => ?_
    have hab := h a ha b hb hminutes
    have hba := h b hb a ha hminutes.symm
    omega

/-- No earliest and no latest stamp of a shape stands the wrong way round to another one. -/
def NoneMissed (ω : Offset) (xs : List Sighting) : Prop :=
  ∀ a ∈ xs, ∀ b ∈ xs, a.shape = b.shape → a.shape ≠ [] → a.Inverted ω b →
    (∃ c ∈ xs, c.shape = a.shape ∧ c.instant ω < a.instant ω) ∧
      ∃ c ∈ xs, c.shape = a.shape ∧ b.instant ω < c.instant ω

theorem inOrder_iff (hiso : ∀ x ∈ xs, x.Iso ω) :
    InOrder ω xs ↔ SameKeys ω xs ∧ NoneMissed ω xs := by
  rw [sameKeys_iff hiso]
  constructor
  · intro h
    refine ⟨fun a ha b hb hminutes hspill => ?_, fun a ha b hb hshape hne hinv => ?_⟩
    · obtain ⟨h₁, h₂, -⟩ := h a ha b hb hminutes hspill
      exact ⟨h₁, h₂⟩
    · obtain ⟨hminutes, hlt, hsum⟩ := hinv
      obtain ⟨-, -, h₃⟩ := h a ha b hb hminutes (by omega)
      exact h₃ hshape hne hlt hsum
  · rintro ⟨hkeys, hnone⟩ a ha b hb hminutes hspill
    obtain ⟨h₁, h₂⟩ := hkeys a ha b hb hminutes hspill
    exact ⟨h₁, h₂, fun hshape hne hlt hsum => hnone a ha b hb hshape hne ⟨hminutes, hlt, hsum⟩⟩

/-- **When every shape has the right extremes.** -/
theorem noneMissed_iff (hiso : ∀ x ∈ xs, x.Iso ω) (hkeys : SameKeys ω xs) : NoneMissed ω xs ↔
    ∀ sh ≠ [], (∀ m ∈ (ofShape sh xs).argmin Sighting.key,
        Earliest (Sighting.instant ω) (ofShape sh xs) m) ∧
      ∀ m ∈ (ofShape sh xs).argmax Sighting.key,
        Latest (Sighting.instant ω) (ofShape sh xs) m := by
  have hshape : ∀ sh, SameKeys ω (ofShape sh xs) := fun sh a ha b hb =>
    hkeys a (mem_ofShape.mp ha).1 b (mem_ofShape.mp hb).1
  -- a later stamp has the greater key, unless the two are inverted
  have hlt : ∀ a ∈ xs, ∀ b ∈ xs, a.instant ω < b.instant ω →
      (a.key < b.key ↔ ¬ a.Inverted ω b) := by
    intro a ha b hb hab
    rw [(hiso a ha).inverted_iff (hiso b hb)]
    constructor
    · intro h hinv
      exact hinv.2.not_gt h
    · intro h
      refine (not_lt.mp fun hba => h ⟨hab, hba⟩).lt_of_ne fun heq => ?_
      exact hab.ne ((hkeys a ha b hb).mp heq)
  constructor
  · intro h sh hsh
    rw [earliest_argmin_iff (hshape sh), latest_argmax_iff (hshape sh)]
    constructor
    · intro a ha hearly b hb hab
      obtain ⟨ha', rfl⟩ := mem_ofShape.mp ha
      obtain ⟨hb', hsame⟩ := mem_ofShape.mp hb
      refine (hlt a ha' b hb' hab).mpr fun hinv => ?_
      obtain ⟨c, hc, hc', hca⟩ := (h a ha' b hb' hsame.symm hsh hinv).1
      exact (hearly c (mem_ofShape.mpr ⟨hc, hc'⟩)).not_gt hca
    · intro b hb hlate a ha hab
      obtain ⟨ha', rfl⟩ := mem_ofShape.mp ha
      obtain ⟨hb', hsame⟩ := mem_ofShape.mp hb
      refine (hlt a ha' b hb' hab).mpr fun hinv => ?_
      obtain ⟨c, hc, hc', hbc⟩ := (h a ha' b hb' hsame.symm hsh hinv).2
      exact (hlate c (mem_ofShape.mpr ⟨hc, hc'⟩)).not_gt hbc
  · intro h a ha b hb hab hne hinv
    have hinstant := (((hiso a ha).inverted_iff (hiso b hb)).mp hinv).1
    have ha' : a ∈ ofShape a.shape xs := mem_ofShape.mpr ⟨ha, rfl⟩
    have hb' : b ∈ ofShape a.shape xs := mem_ofShape.mpr ⟨hb, hab.symm⟩
    obtain ⟨hfirst, hlast⟩ := h a.shape hne
    rw [earliest_argmin_iff (hshape _)] at hfirst
    rw [latest_argmax_iff (hshape _)] at hlast
    constructor
    · by_contra hno
      refine (hlt a ha b hb hinstant).mp (hfirst a ha' (fun c hc => ?_) b hb' hinstant) hinv
      by_contra hca
      obtain ⟨hc, hc'⟩ := mem_ofShape.mp hc
      exact hno ⟨c, hc, hc', not_le.mp hca⟩
    · by_contra hno
      refine (hlt a ha b hb hinstant).mp (hlast b hb' (fun c hc => ?_) a ha' hinstant) hinv
      by_contra hbc
      obtain ⟨hc, hc'⟩ := mem_ofShape.mp hc
      exact hno ⟨c, hc, hc', not_le.mp hbc⟩

/-! ### The timeline -/

theorem summary_eq_none_iff : summary xs = none ↔ xs = [] := by
  constructor
  · intro h
    unfold summary at h
    cases hmin : xs.argmin Sighting.key with
    | none => exact List.argmin_eq_none.mp hmin
    | some a =>
      cases hmax : xs.argmax Sighting.key with
      | none => exact List.argmax_eq_none.mp hmax
      | some b =>
        rw [hmin, hmax] at h
        cases h
  · rintro rfl
    rfl

/-- An event is right just when the sightings with the extreme keys are extreme. -/
theorem right_iff : (∀ ev, summary xs = some ev → Right ω xs ev) ↔
    (∀ m ∈ xs.argmin Sighting.key, Earliest (Sighting.instant ω) xs m) ∧
      ∀ m ∈ xs.argmax Sighting.key, Latest (Sighting.instant ω) xs m := by
  -- the instant is a function of the stamp
  have hstamp : ∀ {a b : Sighting}, a.stamp = b.stamp → a.instant ω = b.instant ω := by
    intro a b h
    rw [Sighting.instant, Sighting.instant, Sighting.read, Sighting.read, h]
  unfold summary
  cases hmin : xs.argmin Sighting.key with
  | none =>
    obtain rfl := List.argmin_eq_none.mp hmin
    simp
  | some a =>
    cases hmax : xs.argmax Sighting.key with
    | none =>
      obtain rfl := List.argmax_eq_none.mp hmax
      cases hmin
    | some b =>
      simp only [Option.bind_some, Option.map_some, Option.some_inj, Option.mem_def, forall_eq']
      constructor
      -- the stamp at an end may be another sighting's, of the same instant
      · rintro ⟨⟨a', ha', hfirst, hearly⟩, ⟨b', hb', hlast, hlate⟩, -, -⟩
        refine ⟨fun c hc => ?_, fun c hc => ?_⟩
        · rw [hstamp hfirst]
          exact hearly c hc
        · rw [hstamp hlast]
          exact hlate c hc
      · rintro ⟨hearly, hlate⟩
        have ha := List.argmin_mem hmin
        exact ⟨⟨a, ha, rfl, hearly⟩, ⟨b, List.argmax_mem hmax, rfl, hlate⟩, rfl, a, ha, rfl, hearly⟩

/-- **When the timeline is chronological.** For the lines of any files, all of whose stamps are of
ISO 8601 with the same offset and at most six digits of a fraction: every shape has the right first
and last stamp, count and place, and keys are equal just where the instants are, if and only if the
lines are in order. -/
theorem timeline_chronological_iff {files : List (List Char × List (List Char))}
    (h : ∀ file ∈ files, ∀ raw ∈ file.2, IsoLine U ω raw) :
    Chronological U ω files ↔ InOrder ω (sightings U files) := by
  have hiso : ∀ x ∈ sightings U files, x.Iso ω := fun x hx => iso_of_mem_sightings h hx
  have hevents := events_parseFiles (U := U) files
  rw [inOrder_iff hiso]
  constructor
  · intro hchron
    have hkeys : SameKeys ω (sightings U files) := hchron.keys
    refine ⟨hkeys, (noneMissed_iff hiso hkeys).mpr fun sh hsh => right_iff.mp fun ev hev => ?_⟩
    refine hchron.events sh ev ?_
    rw [hevents sh, if_neg hsh, hev]
  · rintro ⟨hkeys, hnone⟩
    refine ⟨fun sh => ?_, fun sh ev hev => ?_, hkeys⟩
    · rw [hevents sh]
      by_cases hsh : sh = []
      · simp [hsh]
      · rw [if_neg hsh, summary_eq_none_iff]
        simp [hsh]
    · rw [hevents sh] at hev
      split at hev
      · cases hev
      · next hsh => exact right_iff.mpr ((noneMissed_iff hiso hkeys).mp hnone sh hsh) ev hev

/-- Without a numeric offset the lines are always in order. -/
theorem inOrder_of_digits_nil (h : ω.digits = []) (xs : List Sighting) : InOrder ω xs := by
  have hspill : ∀ n, ω.spill n = 0 := by
    intro n
    unfold Offset.spill
    rw [h, List.take_nil]
    exact number_replicate_zero _
  intro a _ b _ _ hlt
  unfold Stamp.spill at hlt
  rw [hspill, hspill] at hlt
  exact absurd hlt (lt_irrefl 0)

/-- No character beyond ASCII is in any class. -/
def asciiOnly : Unicode := ⟨fun _ => none, fun _ => false, fun _ => false⟩

theorem isoLine_iff {raw : List Char} :
    IsoLine U ω raw ↔ (recognise U (bodyOf U raw)).all (fun hit =>
      decide (hit.name = "iso8601" ∧ IsIso ω hit.stamp)) = true := by
  unfold IsoLine
  cases recognise U (bodyOf U raw) with
  | none => simp
  | some hit => simp

/-- Five lines of two shapes, ahead of UTC, with fractions of no, one, three and six digits.  The
keys of the second and the third are the wrong way round; the first one and the last are right. -/
def fiveLines : List (List Char × List (List Char)) :=
  [("api".toList, ["2026-01-01T00:00:00.000000+05:30 up".toList,
    "2026-01-01T00:00:01+05:30 up".toList,
    "2026-01-01T00:00:01.001+05:30 up".toList]),
   ("db".toList, ["2026-01-01T00:00:02.5+05:30 down".toList,
    "2026-01-01T00:00:03.250000+05:30 up".toList])]

theorem timeline_chronological_fiveLines :
    Chronological asciiOnly (.numeric false true 5 30) fiveLines := by
  refine (timeline_chronological_iff fun file hfile raw hraw => isoLine_iff.mpr ?_).mpr
    (by decide +kernel)
  have hall : ∀ file ∈ fiveLines, ∀ raw ∈ file.2, (recognise asciiOnly (bodyOf asciiOnly raw)).all
      (fun hit => decide (hit.name = "iso8601" ∧ IsIso (.numeric false true 5 30) hit.stamp)) =
        true := by
    decide +kernel
  exact hall file hfile raw hraw

/-- Two lines of one shape, the second a millisecond later; both are ahead of UTC. -/
def twoLines : List (List Char × List (List Char)) :=
  [("log".toList, ["2026-01-01T00:00:00+05:30 up".toList,
    "2026-01-01T00:00:00.001+05:30 up".toList])]

/-- The key of the first line ends in `053000`, that of the second in `001053`. -/
theorem not_timeline_chronological : ¬ ∀ (U : Unicode) (ω : Offset)
    (files : List (List Char × List (List Char))),
    (∀ file ∈ files, ∀ raw ∈ file.2, IsoLine U ω raw) → Chronological U ω files := by
  intro h
  have hchron := h asciiOnly (.numeric false true 5 30) twoLines fun file hfile raw hraw => by
    obtain rfl := List.mem_singleton.mp hfile
    rcases List.mem_cons.mp hraw with rfl | hraw
    · exact isoLine_iff.mpr (by decide +kernel)
    · obtain rfl := List.mem_singleton.mp hraw
      exact isoLine_iff.mpr (by decide +kernel)
  -- the second line has the lesser key, so the event starts with it
  have hfirst : ((parseFiles asciiOnly twoLines State.init).events "up".toList).map Event.first =
      some "2026-01-01T00:00:00.001+05:30".toList := by decide +kernel
  have hseen : (sightings asciiOnly twoLines).map (fun x => (x.stamp, x.shape)) =
      [("2026-01-01T00:00:00+05:30".toList, "up".toList),
        ("2026-01-01T00:00:00.001+05:30".toList, "up".toList)] := by decide +kernel
  obtain ⟨ev, hev, hstamp⟩ := Option.map_eq_some_iff.mp hfirst
  obtain ⟨a, -, ha, hearly⟩ := (hchron.events _ ev hev).first
  -- yet the other line is the earlier one
  obtain ⟨b, hb, hpair⟩ : ∃ b ∈ sightings asciiOnly twoLines,
      (b.stamp, b.shape) = ("2026-01-01T00:00:00+05:30".toList, "up".toList) := by
    refine List.mem_map.mp ?_
    rw [hseen]
    exact List.mem_cons_self
  have hle := hearly b (mem_ofShape.mpr ⟨hb, (Prod.mk.inj hpair).2⟩)
  rw [Sighting.instant, Sighting.instant, Sighting.read, Sighting.read, ← ha, hstamp,
    (Prod.mk.inj hpair).1] at hle
  exact absurd hle (by decide +kernel)

end Postmortem
end SepLab
