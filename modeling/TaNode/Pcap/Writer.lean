import TaNode.Event.Value
import TaNode.Schemes.Calendar
import TaNode.Schemes.Catalog
import TaNode.Schemes.Table

/-! The pcap files kept as evidence: saving one, removing old ones, archiving those of last month.

    Below the device's directory there is one directory for each day, named by its date, and a zip for
    each day that was archived:

        <device>/2026-07-31/ab/evt-abcdef.pcap
        <device>/2026-07-30.zip

    A date is read back as the first instant of its day in UTC, wherever it was written. Instants are
    nanoseconds since 1970, and the clock of a location is the instant and an offset to it. -/

namespace TaNode.Pcap
open Calendar

/-! ### Times -/

/-- A day, in nanoseconds. -/
def day : Int := 86400000000000

/-- A time zone: how far its clock is ahead of UTC at an instant, always less than a day. -/
structure Location where
  offset : Int → Int
  near : ∀ t, -day < offset t ∧ offset t < day

def Location.utc : Location := ⟨fun _ => 0, fun _ => by decide⟩

/-- The instant at which the clock shows `wall`, as `time.Date` finds it: the offset is looked up at
    the instant that the offset at `wall` leads to. -/
def Location.date (l : Location) (wall : Int) : Int := wall - l.offset (wall - l.offset wall)

structure Time where
  instant : Int
  location : Location := .utc

/-- What the clock shows. -/
def Time.wall (t : Time) : Int := t.instant + t.location.offset t.instant

/-- The number of the day that the clock shows. -/
def Time.date (t : Time) : Int := t.wall / day

/-- `AddDate(0, 0, n)` -/
def Time.addDays (t : Time) (n : Int) : Int := t.location.date (t.wall + n * day)

/-! ### The text of a date -/

def digit (n : Nat) : Char := Char.ofNat (48 + n % 10)

/-- Decimal, with at least four digits. -/
def fourDigits (n : Nat) : List Char :=
  if n < 10000 then [digit (n / 1000), digit (n / 100), digit (n / 10), digit n]
  else fourDigits (n / 10) ++ [digit n]

def twoDigits (n : Nat) : List Char := [digit (n / 10), digit n]

def yearText (y : Int) : List Char :=
  if y < 0 then '-' :: fourDigits y.natAbs else fourDigits y.natAbs

/-- `Format("2006-01-02")` of a day. -/
def formatDate (d : Int) : String :=
  let k := monthOf d
  .ofList (yearText (k / 12) ++ '-' :: twoDigits (k % 12 + 1).toNat ++
    '-' :: twoDigits (d - monthStart k + 1).toNat)

def digitValue (c : Char) : Option Nat :=
  if '0' ≤ c ∧ c ≤ '9' then some (c.toNat - 48) else none

def decimal (cs : List Char) : Option Nat :=
  cs.foldl (fun n c => do return 10 * (← n) + (← digitValue c)) (some 0)

/-- `time.Parse("2006-01-02", name)`, as a day. -/
def parseDate (name : String) : Option Int :=
  match name.toList with
  | [y₁, y₂, y₃, y₄, '-', m₁, m₂, '-', d₁, d₂] => do
    let y ← decimal [y₁, y₂, y₃, y₄]
    let m ← decimal [m₁, m₂]
    let d ← decimal [d₁, d₂]
    let k : Int := 12 * y + m - 1
    if 1 ≤ m ∧ m ≤ 12 ∧ 1 ≤ d ∧ (d : Int) ≤ monthStart (k + 1) - monthStart k then
      some (monthStart k + d - 1)
    else none
  | _ => none

example : parseDate "2024-02-29" = some 19782 ∧ parseDate "2026-02-29" = none := by decide +kernel

theorem digitValue_digit (n : Nat) : digitValue (digit n) = some (n % 10) := by
  have hall : ∀ m < 10, digitValue (Char.ofNat (48 + m)) = some m := by decide
  exact hall _ (Nat.mod_lt _ (by decide))

theorem decimal_twoDigits {n : Nat} (h : n < 100) : decimal [digit (n / 10), digit n] = some n := by
  simp only [decimal, List.foldl_cons, List.foldl_nil, digitValue_digit, Option.bind_eq_bind,
    Option.bind_some, Option.pure_def, Option.some.injEq]
  omega

theorem decimal_fourDigits {n : Nat} (h : n < 10000) :
    decimal [digit (n / 1000), digit (n / 100), digit (n / 10), digit n] = some n := by
  simp only [decimal, List.foldl_cons, List.foldl_nil, digitValue_digit, Option.bind_eq_bind,
    Option.bind_some, Option.pure_def, Option.some.injEq]
  omega

theorem four_le_length_fourDigits (n : Nat) : 4 ≤ (fourDigits n).length := by
  induction n using Nat.strongRecOn with
  | ind n ih =>
    rw [fourDigits]
    split_ifs with h
    · exact Nat.le_refl 4
    · have := ih (n / 10) (by omega)
      rw [List.length_append]
      omega

/-- The years that are written with four digits. -/
def PlainYear (d : Int) : Prop := 0 ≤ monthOf d / 12 ∧ monthOf d / 12 < 10000

theorem length_yearText {y : Int} (h : ¬ (0 ≤ y ∧ y < 10000)) : 5 ≤ (yearText y).length := by
  rw [yearText]
  split_ifs with hneg
  · have := four_le_length_fourDigits y.natAbs
    rw [List.length_cons]
    omega
  · have := four_le_length_fourDigits (y.natAbs / 10)
    rw [fourDigits, if_neg (by omega), List.length_append, List.length_singleton]
    omega

theorem parseDate_of_length {name : String} (h : name.toList.length ≠ 10) : parseDate name = none := by
  rw [parseDate]
  split
  · rename_i heq
    rw [heq] at h
    exact absurd rfl h
  · rfl

/-- A day of a plain year is read back, one of any other year is not. -/
theorem parseDate_formatDate {d : Int} (h : PlainYear d) : parseDate (formatDate d) = some d := by
  obtain ⟨hlo, hhi⟩ := monthOf_spec d
  have hlength := monthStart_succ (monthOf d)
  obtain ⟨hzero, hyear⟩ := h
  have htext : (formatDate d).toList = fourDigits (monthOf d / 12).natAbs ++
      '-' :: twoDigits (monthOf d % 12 + 1).toNat ++
      '-' :: twoDigits (d - monthStart (monthOf d) + 1).toNat := by
    rw [formatDate, String.toList_ofList, yearText, if_neg (by omega)]
  rw [parseDate, htext, fourDigits, if_pos (by omega)]
  simp only [twoDigits, List.cons_append, List.nil_append]
  rw [decimal_fourDigits (by omega), decimal_twoDigits (by omega), decimal_twoDigits (by omega)]
  have hmonth : (12 * ((monthOf d / 12).natAbs : Int) + ((monthOf d % 12 + 1).toNat : Int) - 1) =
      monthOf d := by omega
  simp only [Option.bind_eq_bind, Option.bind_some, hmonth]
  rw [if_pos (by omega)]
  congr 1
  omega

theorem parseDate_formatDate_of_not {d : Int} (h : ¬ PlainYear d) :
    parseDate (formatDate d) = none := by
  refine parseDate_of_length ?_
  have hyear := length_yearText h
  simp only [formatDate, String.toList_ofList, List.length_append, List.length_cons, twoDigits]
  omega

/-! ### The files -/

structure Writer where
  enabled : Bool := true
  hashDir : Bool := false
  retainDays : Int := 0
  archiveMonthly : Bool := false

/-- The path of a file below the directory of its day. -/
abbrev Path := List Bytes

abbrev Files := Table Path Bytes

/-- A file in a zip. -/
abbrev Entry := (_ : Path) × Bytes

/-- The directories of the device, and the zips beside them, each under the name of its directory. -/
structure Tree where
  dirs : Table String Files := ∅
  zips : Table String (List Entry) := ∅

/-- Where `Save` puts a file. -/
def Writer.path (w : Writer) (eventID : Bytes) : Path :=
  let file := eventID ++ utf8 ".pcap"
  if w.hashDir ∧ eventID.length ≥ 6 then [(eventID.take 6).drop 4, file] else [file]

/-- Writes a file, over the one that is there. -/
def Tree.write (t : Tree) (name : String) (path : Path) (content : Bytes) : Tree :=
  { t with dirs := t.dirs.insert name (((t.dirs.lookup name).getD ∅).insert path content) }

/-- `Save`, for a packet with a time stamp, if it has one, and its pcap file. -/
def Writer.save (w : Writer) (now : Time) (eventID : Bytes) (timestamp : Option Time)
    (content : Bytes) (t : Tree) : Tree :=
  if !w.enabled then t
  else t.write (formatDate (timestamp.getD now).date) (w.path eventID) content

/-- The directory is named by a date whose first instant is before `cutoff`. -/
def expired (cutoff : Int) (name : String) : Bool :=
  match parseDate name with
  | none => false
  | some d => d * day < cutoff

/-- `RemoveAll` of a directory; if it fails, `left` tells which files are still there. -/
def Tree.removeAll (left : Option (Path → Bool)) (t : Tree) (name : String) : Tree :=
  match left with
  | none => { t with dirs := t.dirs.erase name }
  | some left =>
    { t with dirs := t.dirs.update fun key files =>
        if key = name then files.deleteWhere fun path _ => !left path else files }

/-- `CleanupExpired`, with the number of directories removed; `left` is for the removals that fail. -/
def Writer.cleanupExpired (w : Writer) (now : Time) (left : String → Option (Path → Bool)) (t : Tree) :
    Tree × Nat :=
  if w.retainDays ≤ 0 then (t, 0)
  else
    let names := t.dirs.keys.filter (expired (now.addDays (-w.retainDays)))
    (names.foldl (fun t name => t.removeAll (left name) name) t,
      (names.filter fun name => (left name).isNone).length)

/-- What can go wrong with one file of a zip; a copy breaks off after some bytes. -/
inductive FileFault where
  | createEntry
  | openFile
  | copy (written : Nat)
  deriving DecidableEq, Repr

/-- What can go wrong with one directory: its zip cannot be created, the walk reports an error in place
    of a file, a file fails, the zip or its file is not closed, and the directory is not removed. A
    zip that is not closed lacks what was buffered, the list of its entries above all; the function
    tells which of them can still be read. -/
structure Faults where
  create : Bool := false
  walk : Path → Bool := fun _ => false
  file : Path → Option FileFault := fun _ => none
  close : Option (Path → Bool) := none
  remove : Option (Path → Bool) := none

/-- The walk of `archiveDir`: the entries of the zip, and the number of files. It passes over errors of
    the walk and ends at the first file that fails. -/
def archiveWalk (faults : Faults) : List Entry → List Entry × Nat
  | [] => ([], 0)
  | e :: rest =>
    if faults.walk e.1 then archiveWalk faults rest
    else match faults.file e.1 with
      | none =>
        let (entries, count) := archiveWalk faults rest
        (e :: entries, count + 1)
      | some .createEntry => ([], 0)
      | some .openFile => ([⟨e.1, []⟩], 0)
      | some (.copy written) => ([⟨e.1, e.2.take written⟩], 1)

/-- `archiveDir`: the zip, `none` if it was not created, and the number of files. -/
def archiveDir (faults : Faults) (order : Visit Entry) (files : Files) : Option (List Entry) × Nat :=
  if faults.create then (none, 0)
  else
    let (entries, count) := archiveWalk faults (order.visit files.entries)
    -- the results of the deferred calls of `Close` are dropped
    match faults.close with
    | none => (some entries, count)
    | some readable => (some (entries.filter fun e => readable e.1), count)

section
variable (now : Time)

/-- The first instant of last month and that of this one. -/
def lastMonth : Int := now.location.date (monthStart (monthOf now.date - 1) * day)

def thisMonth : Int := now.location.date (monthStart (monthOf now.date) * day)

/-- The directory is named by a date that is not outside last month. -/
def archivable (name : String) : Bool :=
  match parseDate name with
  | none => false
  | some d => !(d * day < lastMonth now || d * day > thisMonth now)

end

/-- Archives one directory and removes it. -/
def archiveOne (faults : String → Faults) (order : Visit Entry) (t : Tree) (name : String) : Tree × Nat :=
  match t.dirs.lookup name with
  | none => (t, 0)
  | some files =>
    let (zip, count) := archiveDir (faults name) order files
    let t := match zip with
      | none => t
      | some entries => { t with zips := t.zips.insert name entries }
    (t.removeAll (faults name).remove name, count)

/-- `ArchiveLastMonth`, with the number of files archived. -/
def Writer.archiveLastMonth (w : Writer) (now : Time) (faults : String → Faults) (order : Visit Entry)
    (t : Tree) : Tree × Nat :=
  if !w.archiveMonthly then (t, 0)
  else (t.dirs.keys.filter (archivable now)).foldl (fun (t, total) name =>
    let (t', count) := archiveOne faults order t name
    (t', total + count)) (t, 0)

end TaNode.Pcap
