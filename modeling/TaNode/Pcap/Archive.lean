import TaNode.Pcap.Selection
import TaNode.Schemes.Runs

/-! Whether archiving loses files, over runs of `Save`, `ArchiveLastMonth` and `CleanupExpired`.

    Archiving a day makes its zip anew, whatever is in it, copies what it can, and removes the
    directory, whatever was copied:

        directory     zip            directory     zip
        b             a        ──▶                 b          the day came back: a is lost
        a, b                   ──▶                 a          a copy failed: b is lost

    A file that was saved is in one of the two places as long as every day that is archived has all its
    files in its directory, and nothing fails. -/

namespace TaNode.Pcap

/-- The tree, and the history of the files in it: what `Save` wrote last to each path that
    `CleanupExpired` has not removed since. -/
structure Evidence where
  tree : Tree := {}
  saved : Table (String × Path) Bytes := ∅

/-- The file is at its path, or in the zip of its day. -/
def Holds (c : Option Files × Option (List Entry)) (path : Path) (content : Bytes) : Prop :=
  (∃ files, c.1 = some files ∧ files.lookup path = some content) ∨
    ∃ entries, c.2 = some entries ∧ ⟨path, content⟩ ∈ entries

def Evidence.Retrievable (s : Evidence) : Prop :=
  ∀ name path content, s.saved.lookup (name, path) = some content →
    Holds (s.tree.cell name) path content

/-! ### Steps -/

/-- There is a file at the path. -/
def Tree.has (t : Tree) (name : String) (path : Path) : Bool :=
  ((t.dirs.lookup name).bind (·.lookup path)).isSome

inductive Call where
  | save (now : Time) (eventID : Bytes) (timestamp : Option Time) (content : Bytes)
  | archive (now : Time) (faults : String → Faults) (order : Visit Entry)
  | cleanup (now : Time) (left : String → Option (Path → Bool))

def Writer.call (w : Writer) (s : Evidence) : Call → Evidence
  | .save now eventID timestamp content =>
    { tree := w.save now eventID timestamp content s.tree
      saved := if w.enabled then
          s.saved.insert (formatDate (timestamp.getD now).date, w.path eventID) content
        else s.saved }
  | .archive now faults order => { s with tree := (w.archiveLastMonth now faults order s.tree).1 }
  | .cleanup now left =>
    let tree := (w.cleanupExpired now left s.tree).1
    { tree := tree
      saved := s.saved.deleteWhere fun (name, path) _ => s.tree.has name path && !tree.has name path }

/-- Archiving a day: nothing fails, and all files saved on it are still in its directory. -/
structure Safe (s : Evidence) (faults : Faults) (name : String) (files : Files) : Prop where
  create : faults.create = false
  close : faults.close = none
  copy : ∀ e ∈ files.entries, faults.walk e.1 = false ∧ faults.file e.1 = none
  unarchived : ∀ path content, s.saved.lookup (name, path) = some content →
    files.lookup path = some content

/-- Every day that the call archives is safe. -/
def SafeCall (s : Evidence) : Call → Prop
  | .archive now faults _ => ∀ name files, s.tree.dirs.lookup name = some files →
    archivable now name = true → Safe s (faults name) name files
  | _ => True

/-! ### What each call keeps -/

section
variable {s : Evidence} {w : Writer}

theorem cell_write (t : Tree) (name name' : String) (path : Path) (content : Bytes) :
    (t.write name path content).cell name' =
      if name' = name then (some (((t.cell name).1.getD ∅).insert path content), (t.cell name).2)
      else t.cell name' := by
  rw [Tree.write, Tree.cell]
  split_ifs with h
  · rw [h, AList.lookup_insert]
    rfl
  · rw [AList.lookup_insert_ne h]
    rfl

theorem retrievable_save (h : s.Retrievable) (now : Time) (eventID : Bytes) (timestamp : Option Time)
    (content : Bytes) : (w.call s (.save now eventID timestamp content)).Retrievable := by
  rw [Writer.call, Writer.save]
  cases w.enabled with
  | false => exact h
  | true =>
    intro name path content' hsaved
    simp only [Bool.not_true, Bool.false_eq_true, if_false, if_true] at hsaved ⊢
    generalize formatDate (timestamp.getD now).date = dir at hsaved ⊢
    rw [cell_write]
    rw [Table.lookup_insert_iff] at hsaved
    rcases hsaved with ⟨heq, rfl⟩ | ⟨hne, hsaved⟩
    · obtain ⟨rfl, rfl⟩ := Prod.mk.inj heq
      rw [if_pos rfl]
      exact .inl ⟨_, rfl, AList.lookup_insert _⟩
    · have hold := h name path content' hsaved
      split_ifs with hname
      · subst hname
        rcases hold with ⟨files, hfiles, hlookup⟩ | hzip
        · have hpath : path ≠ w.path eventID := fun hp => hne (by rw [hp])
          refine .inl ⟨_, rfl, ?_⟩
          rw [hfiles, Option.getD_some, AList.lookup_insert_ne hpath, hlookup]
        · exact .inr hzip
      · exact hold

/-- Archiving a safe day moves its files to the zip. -/
theorem holds_archiveCell {faults : Faults} {order : Visit Entry} {name : String} {files : Files}
    (hsafe : Safe s faults name files) {path : Path} {content : Bytes}
    (hsaved : s.saved.lookup (name, path) = some content) (zip : Option (List Entry)) :
    Holds (archiveCell faults order (some files, zip)) path content := by
  rw [archiveCell, archiveDir_of_ok hsafe.create hsafe.close hsafe.copy]
  refine .inr ⟨order.visit files.entries, rfl, order.mem.mpr ?_⟩
  exact Table.lookup_eq_some_iff.mp (hsafe.unarchived path content hsaved)

theorem retrievable_archive (h : s.Retrievable) {now : Time} {faults : String → Faults}
    {order : Visit Entry} (hsafe : SafeCall s (.archive now faults order)) :
    (w.call s (.archive now faults order)).Retrievable := by
  intro name path content hsaved
  have hold := h name path content hsaved
  rw [Writer.call]
  cases hmonthly : w.archiveMonthly with
  | false =>
    rw [archiveLastMonth_fst, hmonthly]
    exact hold
  | true =>
    rw [cell_archiveLastMonth hmonthly]
    split_ifs with harchivable
    · cases hdir : s.tree.dirs.lookup name with
      | none =>
        have hcell : s.tree.cell name = (none, s.tree.zips.lookup name) := by rw [Tree.cell, hdir]
        rw [hcell] at hold ⊢
        exact hold
      | some files =>
        have hcell : s.tree.cell name = (some files, s.tree.zips.lookup name) := by
          rw [Tree.cell, hdir]
        rw [hcell]
        exact holds_archiveCell (hsafe name files hdir harchivable) hsaved _
    · exact hold

theorem has_iff {t : Tree} {name : String} {path : Path} : t.has name path = true ↔
    ∃ files content, (t.cell name).1 = some files ∧ files.lookup path = some content := by
  rw [Tree.has, Option.isSome_iff_exists]
  simp only [Option.bind_eq_some_iff]
  exact ⟨fun ⟨content, files, hfiles, hlookup⟩ => ⟨files, content, hfiles, hlookup⟩,
    fun ⟨files, content, hfiles, hlookup⟩ => ⟨content, files, hfiles, hlookup⟩⟩

/-- What is left of a directory is unchanged. -/
theorem lookup_remaining {left : Option (Path → Bool)} {files files' : Files} {path : Path}
    {content : Bytes} (hleft : remaining left (some files) = some files')
    (hlookup : files'.lookup path = some content) : files.lookup path = some content := by
  cases left with
  | none => cases hleft
  | some left =>
    obtain rfl := Option.some.inj hleft
    exact (Table.lookup_deleteWhere.mp hlookup).1

theorem retrievable_cleanup (h : s.Retrievable) (now : Time) (left : String → Option (Path → Bool)) :
    (w.call s (.cleanup now left)).Retrievable := by
  intro name path content hsaved
  rw [Writer.call, Table.lookup_deleteWhere] at hsaved
  obtain ⟨hsaved, hkept⟩ := hsaved
  have hold := h name path content hsaved
  rw [Writer.call]
  by_cases hdays : 0 < w.retainDays
  swap
  · rw [Writer.cleanupExpired, if_pos (by omega)]
    exact hold
  have hcell := cell_cleanupExpired hdays now left s.tree name
  split_ifs at hcell with hremoved
  swap
  · rw [hcell]
    exact hold
  rcases hold with ⟨files, hfiles, hlookup⟩ | hzip
  · -- the file was in the directory, so it is not forgotten only if it is still there
    have hbefore : s.tree.has name path = true := has_iff.mpr ⟨files, content, hfiles, hlookup⟩
    simp only [hbefore, Bool.true_and, Bool.not_eq_false'] at hkept
    obtain ⟨files', content', hfiles', hlookup'⟩ := has_iff.mp hkept
    have hleft : remaining (left name) (some files) = some files' := by
      rw [hcell, removeCell, hfiles] at hfiles'
      exact hfiles'
    have hsame := lookup_remaining hleft hlookup'
    obtain rfl : content' = content := Option.some.inj (hsame.symm.trans hlookup)
    exact .inl ⟨files', hfiles', hlookup'⟩
  · exact .inr (by rw [hcell]; exact hzip)

end

/-! ### Runs -/

/-- A call of which every day it archives is safe. -/
def SafeStep (s s' : Evidence) : Prop := ∃ w c, SafeCall s c ∧ s' = Writer.call w s c

theorem retrievable_step {s s' : Evidence} (h : s.Retrievable) (hstep : SafeStep s s') :
    s'.Retrievable := by
  obtain ⟨w, c, hsafe, rfl⟩ := hstep
  cases c with
  | save now eventID timestamp content => exact retrievable_save h now eventID timestamp content
  | archive now faults order => exact retrievable_archive h hsafe
  | cleanup now left => exact retrievable_cleanup h now left

/-- In a run of safe calls, from any tree, every file saved can be retrieved. -/
theorem safe_runs_retrievable (s : Evidence)
    (hs : Reachable (fun s => s.saved = ∅) SafeStep s) : s.Retrievable := by
  refine hs.invariant ?_ fun s s' h hstep => retrievable_step h hstep
  intro s hempty name path content hsaved
  rw [hempty] at hsaved
  cases hsaved

/-- A writer that archives. -/
def archiver : Writer := { archiveMonthly := true }

/-- A packet of July 10. -/
def julyPacket (eventID : String) : Call :=
  .save midAugust (utf8 eventID) (some ⟨20644 * day, .utc⟩) (utf8 eventID)

/-- A file of July is saved, and archived in August. -/
def julyOnce (faults : String → Faults) : Evidence :=
  archiver.call (archiver.call {} (julyPacket "a")) (.archive midAugust faults .listed)

/-- Another file of the same day is saved afterwards, and the day archived again. -/
def julyTwice : Evidence :=
  archiver.call (archiver.call (julyOnce fun _ => {}) (julyPacket "b"))
    (.archive midAugust (fun _ => {}) .listed)

theorem safe_runs_retrievable_july :
    Holds ((julyOnce fun _ => {}).tree.cell "2026-07-10") [utf8 "a.pcap"] (utf8 "a") := by
  have hsaved : SafeStep {} (archiver.call {} (julyPacket "a")) :=
    ⟨archiver, julyPacket "a", trivial, rfl⟩
  have harchived : SafeStep (archiver.call {} (julyPacket "a")) (julyOnce fun _ => {}) := by
    refine ⟨archiver, .archive midAugust (fun _ => {}) .listed, ?_, rfl⟩
    intro name files hdir _
    refine ⟨rfl, rfl, fun _ _ => ⟨rfl, rfl⟩, fun path content hlookup => ?_⟩
    -- one directory with one file, and that file is all that was saved
    have hdirs : (archiver.call {} (julyPacket "a")).tree.dirs = (∅ : Table String Files).insert
        (formatDate 20644) ((∅ : Files).insert [utf8 "a.pcap"] (utf8 "a")) := rfl
    have hfiles : (archiver.call {} (julyPacket "a")).saved =
        (∅ : Table (String × Path) Bytes).insert (formatDate 20644, [utf8 "a.pcap"]) (utf8 "a") := rfl
    rw [hdirs, Table.lookup_insert_iff] at hdir
    rw [hfiles, Table.lookup_insert_iff] at hlookup
    rcases hdir with ⟨rfl, rfl⟩ | ⟨_, hdir⟩
    · rcases hlookup with ⟨heq, rfl⟩ | ⟨_, hlookup⟩
      · obtain ⟨-, rfl⟩ := Prod.mk.inj heq
        exact AList.lookup_insert _
      · cases hlookup
    · cases hdir
  refine safe_runs_retrievable _ (.next (.next (.start rfl) hsaved) harchived) "2026-07-10" _ _ ?_
  decide +kernel

theorem not_holds {c : Option Files × Option (List Entry)} {path : Path} {content : Bytes}
    (hdir : c.1.isNone = true) (hzip : ⟨path, content⟩ ∉ c.2.getD []) : ¬ Holds c path content := by
  rintro (⟨files, hfiles, -⟩ | ⟨entries, hentries, hmem⟩)
  · rw [hfiles] at hdir
    cases hdir
  · rw [hentries] at hzip
    exact hzip hmem

/-- The file of event "a" was saved, and is neither in its directory nor in the zip. -/
def LosesA (s : Evidence) : Prop :=
  s.saved.lookup ("2026-07-10", [utf8 "a.pcap"]) = some (utf8 "a") ∧
    ¬ Holds (s.tree.cell "2026-07-10") [utf8 "a.pcap"] (utf8 "a")

/-- The new zip of a day takes the place of its old one; and neither a zip that cannot be created nor
    one that cannot be closed keeps the directory from being removed. -/
theorem archiving_loses_files :
    LosesA julyTwice ∧ LosesA (julyOnce fun _ => { create := true }) ∧
      LosesA (julyOnce fun _ => { close := some fun _ => false }) := by
  refine ⟨⟨?_, not_holds ?_ ?_⟩, ⟨?_, not_holds ?_ ?_⟩, ?_, not_holds ?_ ?_⟩
  all_goals decide +kernel

end TaNode.Pcap
