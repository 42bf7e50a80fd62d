import Mathlib.Data.Char
import Mathlib.Data.List.DropRight
import Mathlib.Data.List.Lex
import Mathlib.Data.List.MinMax
import Mathlib.Data.Prod.Lex
import SepLab.Lib.Digits
import SepLab.Lib.Regex

/-!
# From log lines to events

The parser of `timeline_from_logs.py`: it finds the timestamp of a line, makes a key to order it by,
takes the rest of the line for its shape, and keeps for every shape the first and the last stamp,
how often it was seen and where. Texts are lists of characters.

## Main definitions

* `Unicode` — what the character classes of Python hold beyond ASCII.
* `recognisers`, `isoKey` — the stamps and their keys.
* `shape`, `parse`, `parseFiles` — the parser.
* `Sighting`, `sightings` — what a line tells of a shape; what the lines of several files tell.
* `summary` — the event that several sightings make.
* `Cites` — a stamp stands in the line at a place.

## Main results

* `State.Tells.see` — a line adds its sighting to the event of its shape.
* `events_parseFiles` — **the events are the summaries** of what the lines tell.
* `event_cites` — the stamps of an event stand in lines of its shape.
-/

namespace SepLab
namespace Postmortem

open Regex

/-- The classes of characters beyond ASCII. -/
structure Unicode where
  decimal : Char → Option (Fin 10)
  space : Char → Bool
  alnum : Char → Bool

section
variable (U : Unicode)

/-! ### Character classes -/

/-- `\d` -/
def isDecimal (c : Char) : Bool :=
  c.isDigit || (decide (128 ≤ c.toNat) && (U.decimal c).isSome)

/-- `\s` -/
def isSpace (c : Char) : Bool :=
  (decide (9 ≤ c.toNat) && decide (c.toNat ≤ 13)) ||
    (decide (28 ≤ c.toNat) && decide (c.toNat ≤ 32)) ||
    (decide (128 ≤ c.toNat) && U.space c)

/-- `\w` -/
def isWord (c : Char) : Bool :=
  c.isAlphanum || c == '_' || (decide (128 ≤ c.toNat) && U.alnum c)

/-- `\d` -/
def digit : Regex := char (isDecimal U)

/-- `\s` -/
def space : Regex := char (isSpace U)

/-- `\b` -/
def wordEdge : Regex := edge fun b a => b.any (isWord U) != a.any (isWord U)

/-- `^` -/
def lineStart : Regex := edge fun b _ => b.isNone

/-- `[A-Z]` -/
def upper : Regex := char Char.isUpper

/-- `[a-z]` -/
def lower : Regex := char Char.isLower

/-- `[0-9a-fA-F]` -/
def hexDigit : Regex := char (Digits.isDigit 16)

/-- `[+-]` -/
def sign : Regex := oneOf ['+', '-']

/-- `\d{2}:\d{2}:\d{2}` -/
def clock : Regex :=
  all (exactly 2 (digit U)) [lit ':', exactly 2 (digit U), lit ':', exactly 2 (digit U)]

/-! ### Timestamps -/

/-- The pattern of ISO 8601. -/
def iso8601 : Regex :=
  all (exactly 4 (digit U)) [lit '-', exactly 2 (digit U), lit '-', exactly 2 (digit U),
    oneOf ['T', ' '], clock U, opt (seq (oneOf ['.', ',']) (some₁ (digit U))),
    opt (alt (lit 'Z') (all sign [exactly 2 (digit U), opt (lit ':'), exactly 2 (digit U)]))]

/-- The pattern of the common log format. -/
def commonLog : Regex :=
  all (lit '[') [group "day" (exactly 2 (digit U)), lit '/',
    group "mon" (seq upper (exactly 2 lower)), lit '/', group "year" (exactly 4 (digit U)),
    lit ':', group "time" (clock U), many (space U), opt (seq sign (exactly 4 (digit U))), lit ']']

/-- The pattern of syslog. -/
def syslog : Regex :=
  all (group "mon" (seq upper (exactly 2 lower))) [some₁ (space U),
    group "day" (rep 1 (some 2) (digit U)), some₁ (space U), group "time" (clock U)]

/-- A tuple of a number and a text, in the order of Python. -/
abbrev Key := ℕ ×ₗ List Char

/-- `re.sub(r"[^0-9]", "", s)` -/
def digitsOnly (s : List Char) : List Char := s.filter Char.isDigit

/-- `s.ljust(n, "0")` -/
def ljust (n : ℕ) (s : List Char) : List Char := s ++ List.replicate (n - s.length) '0'

/-- `_iso_key` -/
def isoKey (m : Match) : Key :=
  let d := m.text.map fun c => if c = 'T' then ' ' else c
  toLex (1, ljust 20 ((digitsOnly d).take 20))

/-- `_MONTHS` -/
def months : List (List Char) :=
  ["Jan", "Feb", "Mar", "Apr", "May", "Jun", "Jul", "Aug", "Sep", "Oct", "Nov", "Dec"].map
    String.toList

/-- `MONTHS.get(mon, 0)` -/
def monthOf (mon : List Char) : ℕ := if mon ∈ months then months.idxOf mon + 1 else 0

/-- The format `02d`. -/
def twoDigits (n : ℕ) : List Char :=
  List.replicate (2 - (Nat.toDigits 10 n).length) '0' ++ Nat.toDigits 10 n

/-- `int` of decimal digits. -/
def intOf (s : List Char) : ℕ :=
  Digits.value 10 (s.map fun c =>
    if c.isDigit then c.toNat - 48 else ((U.decimal c).map Fin.val).getD 0)

/-- `_clf_key` -/
def clfKey (m : Match) : Key :=
  toLex (1, m.group "year" ++ twoDigits (monthOf (m.group "mon")) ++
    twoDigits (intOf U (m.group "day")) ++ digitsOnly (m.group "time"))

/-- `_syslog_key` -/
def syslogKey (m : Match) : Key :=
  toLex (0, twoDigits (monthOf (m.group "mon")) ++ twoDigits (intOf U (m.group "day")) ++
    digitsOnly (m.group "time"))

/-- The formats in the order in which they are tried, each with its key function. -/
def recognisers : List (String × Regex × (Match → Key)) :=
  [("iso8601", iso8601 U, isoKey), ("common-log", commonLog U, clfKey U),
    ("syslog", syslog U, syslogKey U)]

/-- What a recogniser finds in a line. -/
structure Hit where
  name : String
  stamp : List Char
  key : Key
  rest : List Char

/-- The first recogniser that finds something. -/
def recognise (body : List Char) : Option Hit :=
  (recognisers U).findSome? fun r => (r.2.1.search body).map fun m =>
    ⟨r.1, m.text, r.2.2 m, m.before ++ m.after⟩

/-! ### Shapes -/

/-- The name of the service that Compose puts before a line. -/
def composePrefix : Regex :=
  all lineStart [some₁ (char fun c => c.isAlphanum || ['_', '.', '-'].contains c),
    many (space U), lit '|', space U]

/-- The substitutions that turn a text into its shape. -/
def shapeRules : List (Regex × List Char) :=
  [(all (wordEdge U) [exactly 8 hexDigit, lit '-', exactly 4 hexDigit, lit '-', exactly 4 hexDigit,
      lit '-', exactly 4 hexDigit, lit '-', exactly 12 hexDigit, wordEdge U], "<uuid>".toList),
    (all (wordEdge U) [rep 7 (some 40) hexDigit, wordEdge U], "<hex>".toList),
    (all (wordEdge U) [rep 1 (some 3) (digit U),
      exactly 3 (seq (lit '.') (rep 1 (some 3) (digit U))), wordEdge U], "<ip>".toList),
    (all (some₁ (digit U)) [opt (seq (lit '.') (some₁ (digit U))),
      alt (seq (lit 'm') (lit 's')) (seq (lit 's') (wordEdge U))], "<duration>".toList),
    (all (wordEdge U) [some₁ (digit U), wordEdge U], "<n>".toList),
    (some₁ (space U), " ".toList)]

/-- `text.strip()` -/
def strip (text : List Char) : List Char :=
  (text.dropWhile (isSpace U)).rdropWhile (isSpace U)

/-- `shape`: what stays of a text when its numbers and identifiers are taken out. -/
def shape (text : List Char) : List Char :=
  ((shapeRules U).foldl (fun s rule => rule.1.sub rule.2 s) (strip U text)).take 96

/-! ### The parser -/

/-- What is kept of the lines of one shape. -/
structure Event where
  firstKey : Key
  first : List Char
  lastKey : Key
  last : List Char
  count : ℕ
  /-- `where` -/
  place : List Char

/-- The events by their shapes, and the statistics. -/
structure State where
  events : List Char → Option Event
  lines : ℕ
  untimestamped : ℕ
  formats : List String

/-- Before the first line. -/
def State.init : State := ⟨fun _ => none, 0, 0, []⟩

/-- `origin:lineno` -/
def placeOf (origin : List Char) (lineno : ℕ) : List Char :=
  origin ++ ':' :: Nat.toDigits 10 lineno

/-- A line without its line end and the name that docker compose puts before it. -/
def bodyOf (raw : List Char) : List Char := (composePrefix U).sub [] (raw.rdropWhile (· == '\n'))

/-- What a line of the event's shape changes. -/
def Event.update (ev : Event) (key : Key) (stamp place : List Char) : Event :=
  let ev := { ev with count := ev.count + 1 }
  let ev :=
    if key < ev.firstKey then
      { ev with
        firstKey := key
        first := stamp
        place := place }
    else ev
  if key > ev.lastKey then
    { ev with
      lastKey := key
      last := stamp }
  else ev

/-- What the parser does with one line. -/
def parseLine (origin : List Char) (st : State) (lineno : ℕ) (raw : List Char) : State :=
  let st := { st with lines := st.lines + 1 }
  match recognise U (bodyOf U raw) with
  | none => { st with untimestamped := st.untimestamped + 1 }
  | some hit =>
    let st := { st with formats := st.formats.insert hit.name }
    let sh := shape U hit.rest
    let place := placeOf origin lineno
    if sh = [] then st
    else
      let ev := (st.events sh).getD ⟨hit.key, hit.stamp, hit.key, hit.stamp, 0, place⟩
      { st with events := Function.update st.events sh (some (ev.update hit.key hit.stamp place)) }

/-- `parse`: the lines of one file, numbered from one. -/
def parse (lines : List (List Char)) (origin : List Char) (st : State) : State :=
  (lines.zipIdx 1).foldl (fun st p => parseLine U origin st p.2 p.1) st

/-- One file after the other, with the same events. -/
def parseFiles (files : List (List Char × List (List Char))) (st : State) : State :=
  files.foldl (fun st file => parse U file.2 file.1 st) st

/-! ### What the lines tell -/

/-- What a line with a timestamp tells of its shape. -/
structure Sighting where
  place : List Char
  stamp : List Char
  key : Key
  shape : List Char

/-- What a line tells, if its stamp is recognised. -/
def sighting (origin : List Char) (lineno : ℕ) (raw : List Char) : Option Sighting :=
  (recognise U (bodyOf U raw)).map fun hit =>
    ⟨placeOf origin lineno, hit.stamp, hit.key, shape U hit.rest⟩

/-- What the lines of a file tell. -/
def fileSightings (file : List Char × List (List Char)) : List Sighting :=
  (file.2.zipIdx 1).filterMap fun p => sighting U file.1 p.2 p.1

/-- What the lines of several files tell. -/
def sightings (files : List (List Char × List (List Char))) : List Sighting :=
  files.flatMap (fileSightings U)

end

/-- The sightings of a shape. -/
def ofShape (sh : List Char) (xs : List Sighting) : List Sighting := xs.filter (·.shape = sh)

theorem mem_ofShape {sh : List Char} {xs : List Sighting} {x : Sighting} :
    x ∈ ofShape sh xs ↔ x ∈ xs ∧ x.shape = sh := by
  unfold ofShape
  rw [List.mem_filter, decide_eq_true_iff]

/-- The event that the sightings of a shape make: the first of those with the least key, and the
first of those with the greatest. -/
def summary (xs : List Sighting) : Option Event :=
  (xs.argmin Sighting.key).bind fun a => (xs.argmax Sighting.key).map fun b =>
    ⟨a.key, a.stamp, b.key, b.stamp, xs.length, a.place⟩

/-- The events are the summaries of what has been seen. -/
def State.Tells (st : State) (seen : List Sighting) : Prop :=
  ∀ sh, st.events sh = if sh = [] then none else summary (ofShape sh seen)

/-- **One more sighting** updates the event. -/
theorem summary_concat (xs : List Sighting) (x : Sighting) : summary (xs ++ [x]) =
    some (((summary xs).getD ⟨x.key, x.stamp, x.key, x.stamp, 0, x.place⟩).update x.key x.stamp
      x.place) := by
  unfold summary
  rw [List.argmin_concat, List.argmax_concat]
  cases hmin : xs.argmin Sighting.key with
  | none =>
    -- the first sighting is both
    obtain rfl := List.argmin_eq_none.mp hmin
    simp [Event.update]
  | some a =>
    cases hmax : xs.argmax Sighting.key with
    | none =>
      obtain rfl := List.argmax_eq_none.mp hmax
      cases hmin
    | some b =>
      simp only [Option.bind_some, Option.map_some, Option.getD_some, Event.update,
        List.length_append]
      by_cases hlt : x.key < a.key
      · by_cases hgt : b.key < x.key
        · simp [hlt, hgt]
        · simp [hlt, hgt]
      · by_cases hgt : b.key < x.key
        · simp [hlt, hgt]
        · simp [hlt, hgt]

variable {U : Unicode}

namespace State

variable {st : State} {seen : List Sighting}

theorem Tells.init : init.Tells [] := by
  intro sh
  split
  · rfl
  · rfl

theorem ofShape_concat (sh : List Char) (xs : List Sighting) (x : Sighting) :
    ofShape sh (xs ++ [x]) = ofShape sh xs ++ if x.shape = sh then [x] else [] := by
  unfold ofShape
  rw [List.filter_append, List.filter_singleton]
  split
  · next h => simp [h]
  · next h => simp [h]

/-- What is seen of a line without a shape changes no event. -/
theorem Tells.skip (h : st.Tells seen) {x : Sighting} (hx : x.shape = []) {st' : State}
    (hevents : st'.events = st.events) : st'.Tells (seen ++ [x]) := by
  intro sh
  rw [hevents, h, ofShape_concat, hx]
  split
  · rfl
  · next hne => rw [if_neg (Ne.symm hne), List.append_nil]

/-- **A line adds its sighting** to the event of its shape. -/
theorem Tells.see (h : st.Tells seen) {x : Sighting} (hx : x.shape ≠ []) {st' : State}
    (hevents : st'.events = Function.update st.events x.shape
      (some (((st.events x.shape).getD ⟨x.key, x.stamp, x.key, x.stamp, 0, x.place⟩).update x.key
        x.stamp x.place))) : st'.Tells (seen ++ [x]) := by
  intro sh
  rw [hevents, ofShape_concat]
  by_cases hsh : sh = x.shape
  · subst hsh
    rw [Function.update_self, h, if_neg hx, if_neg hx, if_pos rfl, summary_concat]
  · rw [Function.update_of_ne hsh, h, if_neg (Ne.symm hsh), List.append_nil]

/-- What a line adds. -/
theorem Tells.parseLine (U : Unicode) (h : st.Tells seen) (origin : List Char) (lineno : ℕ)
    (raw : List Char) :
    (parseLine U origin st lineno raw).Tells (seen ++ (sighting U origin lineno raw).toList) := by
  unfold Postmortem.parseLine sighting
  cases hhit : recognise U (bodyOf U raw) with
  | none =>
    rw [Option.map_none, Option.toList_none, List.append_nil]
    exact h
  | some hit =>
    rw [Option.map_some, Option.toList_some]
    dsimp only
    generalize shape U hit.rest = sh
    split
    · next hnil => exact h.skip hnil rfl
    · next hne => exact h.see hne rfl

/-- What the lines of a file add. -/
theorem Tells.parse (U : Unicode) (h : st.Tells seen) (lines : List (List Char))
    (origin : List Char) :
    (parse U lines origin st).Tells (seen ++ fileSightings U (origin, lines)) := by
  unfold Postmortem.parse fileSightings
  induction lines.zipIdx 1 generalizing st seen with
  | nil => simpa using h
  | cons p ps ih =>
    have hstep := ih (h.parseLine U origin p.2 p.1)
    have hsplit : (p :: ps).filterMap (fun p => sighting U origin p.2 p.1) =
        (sighting U origin p.2 p.1).toList ++ ps.filterMap fun p => sighting U origin p.2 p.1 := by
      rw [List.filterMap_cons]
      cases sighting U origin p.2 p.1 with
      | none => rfl
      | some x => rfl
    rw [List.append_assoc] at hstep
    rw [List.foldl_cons, hsplit]
    exact hstep

end State

/-- **The events are the summaries** of what the lines of the files tell. -/
theorem events_parseFiles (files : List (List Char × List (List Char))) :
    (parseFiles U files State.init).Tells (sightings U files) := by
  have hrun : ∀ {st : State} {seen : List Sighting}, st.Tells seen →
      (parseFiles U files st).Tells (seen ++ sightings U files) := by
    intro st seen h
    unfold parseFiles sightings
    induction files generalizing st seen with
    | nil => simpa using h
    | cons file files ih =>
      have hfiles := ih (h.parse U file.2 file.1)
      rwa [List.append_assoc] at hfiles
  have hinit := hrun State.Tells.init
  rwa [List.nil_append] at hinit

/-! ### The lines that an event cites -/

/-- **A recogniser cuts the stamp out of the line**, and leaves the rest. -/
theorem cut_of_recognise {body : List Char} {hit : Hit} (h : recognise U body = some hit) :
    ∃ before after, body = before ++ hit.stamp ++ after ∧ hit.rest = before ++ after := by
  obtain ⟨r, -, hm⟩ := List.exists_of_findSome?_eq_some h
  obtain ⟨m, hsearch, rfl⟩ := Option.map_eq_some_iff.mp hm
  exact ⟨m.before, m.after, eq_of_search hsearch, rfl⟩

/-- The line at `place` is `stamp` and, around it, a text of shape `sh`. -/
def Cites (U : Unicode) (files : List (List Char × List (List Char))) (sh place stamp : List Char) :
    Prop :=
  ∃ file ∈ files, ∃ p ∈ file.2.zipIdx 1, place = placeOf file.1 p.2 ∧
    ∃ before after, bodyOf U p.1 = before ++ stamp ++ after ∧ shape U (before ++ after) = sh

theorem cites_of_mem_sightings {files : List (List Char × List (List Char))} {x : Sighting}
    (hx : x ∈ sightings U files) : Cites U files x.shape x.place x.stamp := by
  obtain ⟨file, hfile, hx⟩ := List.mem_flatMap.mp hx
  obtain ⟨p, hp, hx⟩ := List.mem_filterMap.mp hx
  obtain ⟨hit, hhit, rfl⟩ := Option.map_eq_some_iff.mp hx
  obtain ⟨before, after, hbody, hrest⟩ := cut_of_recognise hhit
  refine ⟨file, hfile, p, hp, rfl, before, after, hbody, ?_⟩
  rw [← hrest]

/-- **The first stamp of an event stands at its place**, in a line of its shape, and the last one
stands in such a line as well. -/
theorem event_cites (files : List (List Char × List (List Char))) {sh : List Char} {ev : Event}
    (h : (parseFiles U files State.init).events sh = some ev) :
    Cites U files sh ev.place ev.first ∧ ∃ place, Cites U files sh place ev.last := by
  rw [events_parseFiles files sh] at h
  split at h
  · cases h
  obtain ⟨a, hmin, h⟩ := Option.bind_eq_some_iff.mp h
  obtain ⟨b, hmax, rfl⟩ := Option.map_eq_some_iff.mp h
  obtain ⟨ha, hasame⟩ := mem_ofShape.mp (List.argmin_mem hmin)
  obtain ⟨hb, hbsame⟩ := mem_ofShape.mp (List.argmax_mem hmax)
  have hfirst := cites_of_mem_sightings ha
  have hlast := cites_of_mem_sightings hb
  rw [hasame] at hfirst
  rw [hbsame] at hlast
  exact ⟨hfirst, b.place, hlast⟩

end Postmortem
end SepLab
