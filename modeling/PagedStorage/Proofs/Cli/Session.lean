import Mathlib
import PagedStorage.Proofs.Cli.Commands
import PagedStorage.Proofs.Store.Directories

/-!
# Sessions on the command line

Runs of the program share nothing but the file at a path. Each of them reads its command line, opens
the file, rebuilds the index of the pages from their bytes, works through a pool of its own and puts
the file back. What the file stands for between two runs, `Cli.recordAt?`, is the map of records of
its contents.

`Session` is what can be reached by such runs. After any of them the program acts on the map as its
commands say, `Session.actsAsPersistentMap`, whatever pools and policies the runs before it had. The
invariant that carries this is that the contents are those of a `TextFile`.

## What is asked of the runs before

A session starts where there is no file, or one without contents. Each of its runs is one on the
same path that needs no id but those before the last one, and in which the medium did not fail. The
first condition is about dropping a page by its id and about storing, which may need a new page. The
second one is about storing alone, which fails where a file has grown to the limit of its medium. A
run that makes up its records has no place in a session, since they depend on a seed.

## One command, one statement

What a command does is a structure or a definition of its own, `StoresRecords`, `ShowsRecords`,
`DeletesRecords`, `DropsPages`, `DumpsPages`, each about any command line that asks for the command.
A run that fails leaves the map alone. This is shown for all commands at once, since what they have
in common is that a run that fails does not flush, and what it wrote before has no records.
-/

namespace PagedStorage.Cli

variable {path : String} {dir : Directory} {line : List String} {command : Command}

/-! ## Files at paths -/

/-- A file can be opened at a path, or made there. -/
def Opens (path : String) (dir : Directory) : Prop :=
  ∃ place c dir', dir.openFile path .openOrCreate = (.ok (place, c), dir')

/-- The contents of the file at a path. A file that is yet to be made has none. -/
def contentsAt (path : String) (dir : Directory) : Contents :=
  match (dir.openFile path .openOrCreate).1 with
  | .ok (_, c) => c
  | .error _ => {}

/-- The record under an address in the file at a path. -/
def recordAt? (path : String) (dir : Directory) (rid : RecordId) : Option (List UInt8) :=
  record? dir.limit? (contentsAt path dir) rid

/-- A command line asks for a command on the file at a path, and for a pool with a frame. -/
def Asks (path : String) (line : List String) (command : Command) : Prop :=
  ∃ settings : Settings, parse line = .ok (settings, command) ∧ settings.path = path ∧
    0 < settings.pool.frames

/-- A run of the program is a run on the contents of a file, and leaves the file with what comes
of them. -/
theorem exists_run_eq (hopens : Opens path dir) (hasks : Asks path line command) (seed : Nat) :
    ∃ settings : Settings, 0 < settings.pool.frames ∧ (run seed dir line).1 =
        (runOn dir.limit? seed settings command (.ok (contentsAt path dir))).1 ∧
      Opens path (run seed dir line).2 ∧ (run seed dir line).2.limit? = dir.limit? ∧
      contentsAt path (run seed dir line).2 =
        (runOn dir.limit? seed settings command (.ok (contentsAt path dir))).2 := by
  obtain ⟨settings, hparse, rfl, hpos⟩ := hasks
  obtain ⟨place, c, dir', hopen⟩ := hopens
  have hcontents : contentsAt settings.path dir = c := by
    rw [contentsAt, hopen]
  have hlimit : dir'.limit? = dir.limit? := (Directory.openFile_again hopen c).1.limit_eq
  have hrun : run seed dir line = ((runOn dir.limit? seed settings command (.ok c)).1,
      dir'.put place (.file (runOn dir.limit? seed settings command (.ok c)).2)) := by
    rw [run]
    simp only [hparse, hopen, hlimit]
  have hagain :=
    (Directory.openFile_again hopen (runOn dir.limit? seed settings command (.ok c)).2).2
  rw [hcontents, hrun]
  refine ⟨settings, hpos, rfl, ⟨_, _, _, hagain⟩, hlimit, ?_⟩
  rw [contentsAt, hagain]

/-! ## Sessions -/

/-- Directories after runs of the program, one after the other, on the file at one path. At first
there is no file, or one without contents. -/
inductive Session (path : String) : Directory → Prop
  | start {dir : Directory} : Opens path dir → contentsAt path dir = {} → Session path dir
  | run {dir : Directory} {line : List String} {command : Command} (seed : Nat) :
      Session path dir → Asks path line command →
      WithinIds dir.limit? (contentsAt path dir) command →
      Undisturbed (run seed dir line).1 command → Session path (run seed dir line).2

theorem Session.textFile (hs : Session path dir) :
    Opens path dir ∧ TextFile dir.limit? (contentsAt path dir) := by
  induction hs with
  | start hopens hempty =>
    rw [hempty]
    exact ⟨hopens, textFile_empty⟩
  | run seed _ hasks hids hrun ih =>
    obtain ⟨settings, hpos, hout, hopens, hlimit, hcontents⟩ := exists_run_eq ih.1 hasks seed
    rw [hout] at hrun
    rw [hlimit, hcontents]
    exact ⟨hopens, ih.2.runOn hpos hids hrun⟩

/-! ## What the commands do -/

/-- A record that is neither too short nor too long gets an address that had none. For this the file
gets longer by one page at most. -/
structure StoresRecords (path : String) (dir : Directory) : Prop where
  insert_fits : ∀ seed line text, Asks path line (.insert text) →
    Affords dir.limit? (contentsAt path dir) (Utf8.bytesOf text) →
    8 ≤ (Utf8.bytesOf text).length → (Utf8.bytesOf text).length ≤ 8160 →
      HasRoom dir.limit? (contentsAt path dir) ∨ Flushes (run seed dir line).1 →
        (run seed dir line).1.code = 0
  insert : ∀ seed line text, Asks path line (.insert text) →
    Affords dir.limit? (contentsAt path dir) (Utf8.bytesOf text) →
    (run seed dir line).1.code = 0 →
    ∃ rid, (run seed dir line).1 = { code := 0, out := "inserted " ++ rid.text ++ "\n" } ∧
      pageCount (contentsAt path (run seed dir line).2) ≤ pageCount (contentsAt path dir) + 1 ∧
      recordAt? path dir rid = none ∧ ∀ i, recordAt? path (run seed dir line).2 i =
        if i = rid then some (Utf8.bytesOf text) else recordAt? path dir i

theorem Session.storesRecords (hs : Session path dir) : StoresRecords path dir := by
  obtain ⟨hopens, hc⟩ := hs.textFile
  constructor
  case insert_fits =>
    intro seed line text hasks hids hmin hmax hfits
    obtain ⟨settings, hpos, hout, -, -, -⟩ := exists_run_eq hopens hasks seed
    obtain ⟨e, hsize, -⟩ | ⟨rid, d, heq, -⟩ | ⟨hfull, hnot⟩ := hc.runOn_insert hpos seed text hids
    · have hok : Heap.checkSize (Utf8.bytesOf text).length = .ok () :=
        Heap.checkSize_eq_ok_iff.2 ⟨hmin, hmax⟩
      cases hok.symm.trans hsize
    · rw [hout, heq]
    · rw [hout] at hfits
      exact absurd hfits (not_or.2 ⟨hfull, hnot⟩)
  case insert =>
    intro seed line text hasks hids hcode
    obtain ⟨settings, hpos, hout, -, hlimit, hcontents⟩ := exists_run_eq hopens hasks seed
    rw [hout] at hcode
    obtain ⟨e, -, heq⟩ | ⟨rid, d, heq, -, hcount, hnew, hrecords⟩ | ⟨-, hnot⟩ :=
      hc.runOn_insert hpos seed text hids
    · rw [heq] at hcode
      cases hcode
    · rw [heq] at hout hcontents
      refine ⟨rid, hout, hcontents.symm ▸ hcount, hnew, fun i ↦ ?_⟩
      rw [recordAt?, hlimit, hcontents]
      exact hrecords i
    · exact absurd (flushes_of_code hcode) hnot

/-- The text of a record is shown. That there is none is shown for an address on a page of the
file. -/
structure ShowsRecords (path : String) (dir : Directory) : Prop where
  get_live : ∀ seed line rid record, Asks path line (.get rid) →
    recordAt? path dir rid = some record → ∃ text, Utf8.bytesOf text = record ∧
      (run seed dir line).1 = { code := 0, out := text ++ "\n" }
  get_dead : ∀ seed line rid, Asks path line (.get rid) →
    rid.page.toNat < pageCount (contentsAt path dir) → recordAt? path dir rid = none →
      (run seed dir line).1 = { code := 0, out := "record " ++ rid.text ++ " not found" ++ "\n" }
  get_keeps : ∀ seed line rid, Asks path line (.get rid) →
    contentsAt path (run seed dir line).2 = contentsAt path dir

theorem Session.showsRecords (hs : Session path dir) : ShowsRecords path dir := by
  obtain ⟨hopens, hc⟩ := hs.textFile
  constructor
  case get_live =>
    intro seed line rid record hasks hrecord
    obtain ⟨settings, hpos, hout, -, -, -⟩ := exists_run_eq hopens hasks seed
    rw [recordAt?] at hrecord
    obtain ⟨page, hpage, hsheet⟩ := hc.exists_stored (lt_of_record? hrecord)
    obtain ⟨text, rfl⟩ := hsheet.spelled _ _ ((record?_of_stored hpage).symm.trans hrecord)
    refine ⟨text, rfl, ?_⟩
    rw [hout, (hc.runOn_get hpos seed rid).2 page hpage, hrecord]
    simp only [Utf8.textOf_bytesOf]
  case get_dead =>
    intro seed line rid hasks hlt hdead
    obtain ⟨settings, hpos, hout, -, -, -⟩ := exists_run_eq hopens hasks seed
    rw [recordAt?] at hdead
    obtain ⟨page, hpage, -⟩ := hc.exists_stored hlt
    rw [hout, (hc.runOn_get hpos seed rid).2 page hpage, hdead]
  case get_keeps =>
    intro seed line rid hasks
    obtain ⟨settings, hpos, -, -, -, hcontents⟩ := exists_run_eq hopens hasks seed
    rw [hcontents, (hc.runOn_get hpos seed rid).1]

/-- A record that is there is deleted, and what was deleted is this record. -/
structure DeletesRecords (path : String) (dir : Directory) : Prop where
  delete_live : ∀ seed line rid, Asks path line (.delete rid) → recordAt? path dir rid ≠ none →
    (run seed dir line).1 = { code := 0, out := "deleted " ++ rid.text ++ "\n" }
  delete : ∀ seed line rid, Asks path line (.delete rid) → (run seed dir line).1.code = 0 →
    ∀ i, recordAt? path (run seed dir line).2 i = if i = rid then none else recordAt? path dir i

theorem Session.deletesRecords (hs : Session path dir) : DeletesRecords path dir := by
  obtain ⟨hopens, hc⟩ := hs.textFile
  constructor
  case delete_live =>
    intro seed line rid hasks hlive
    obtain ⟨settings, hpos, hout, -, -, -⟩ := exists_run_eq hopens hasks seed
    obtain ⟨-, -, hdead⟩ | ⟨d, heq, -⟩ := hc.runOn_delete hpos seed rid
    · exact absurd hdead hlive
    · rw [hout, heq]
  case delete =>
    intro seed line rid hasks hcode i
    obtain ⟨settings, hpos, hout, -, hlimit, hcontents⟩ := exists_run_eq hopens hasks seed
    rw [hout] at hcode
    obtain ⟨-, hfails, -⟩ | ⟨d, heq, -, hrecords⟩ := hc.runOn_delete hpos seed rid
    · exact absurd hcode hfails
    · rw [recordAt?, hlimit, hcontents, heq]
      exact hrecords i

/-- A page is dropped wherever a file can have one, be it behind the end of this file, and with it
go its records. -/
structure DropsPages (path : String) (dir : Directory) : Prop where
  dropPage_fits : ∀ seed line id, Asks path line (.dropPage id) →
    (fileOf dir.limit? (contentsAt path dir)).store.CanHold (PageFile.position id + pageSize) →
      (run seed dir line).1 = { code := 0, out := "dropped page " ++ toString id ++ "\n" }
  dropPage : ∀ seed line id, Asks path line (.dropPage id) → (run seed dir line).1.code = 0 →
    ∀ i, recordAt? path (run seed dir line).2 i =
      if i.page = id then none else recordAt? path dir i

theorem Session.dropsPages (hs : Session path dir) : DropsPages path dir := by
  obtain ⟨hopens, hc⟩ := hs.textFile
  constructor
  case dropPage_fits =>
    intro seed line id hasks hfits
    obtain ⟨settings, hpos, hout, -, -, -⟩ := exists_run_eq hopens hasks seed
    obtain ⟨o, d, heq, -, ⟨-, hlong, -⟩ | ⟨rfl, -⟩⟩ := hc.runOn_dropPage hpos seed id
    · exact absurd hfits hlong
    · rw [hout, heq]
  case dropPage =>
    intro seed line id hasks hcode i
    obtain ⟨settings, hpos, hout, -, hlimit, hcontents⟩ := exists_run_eq hopens hasks seed
    rw [hout] at hcode
    obtain ⟨o, d, heq, -, ⟨hfails, -⟩ | ⟨-, hrecords⟩⟩ := hc.runOn_dropPage hpos seed id
    · rw [heq] at hcode
      exact absurd hcode hfails
    · rw [recordAt?, hlimit, hcontents, heq]
      exact hrecords i

/-- All pages are shown in their order, each with its records, and no other records are. -/
structure DumpsPages (path : String) (dir : Directory) : Prop where
  dump : ∀ seed line, Asks path line .dump →
    contentsAt path (run seed dir line).2 = contentsAt path dir ∧ ∃ listing,
      (run seed dir line).1 = { code := 0, out := listingText listing } ∧
      listing.map (·.1.id) =
        (List.range (pageCount (contentsAt path dir))).map UInt32.ofNat ∧
      (∀ b ∈ listing, Lists dir.limit? (contentsAt path dir) b) ∧
      ∀ rid text, (∃ b ∈ listing, (rid, text) ∈ b.2) ↔
        recordAt? path dir rid = some (Utf8.bytesOf text)

theorem Session.dumpsPages (hs : Session path dir) : DumpsPages path dir := by
  obtain ⟨hopens, hc⟩ := hs.textFile
  refine ⟨fun seed line hasks ↦ ?_⟩
  obtain ⟨settings, hpos, hout, -, hlimit, hcontents⟩ := exists_run_eq hopens hasks seed
  obtain ⟨listing, heq, hmap, hall⟩ := hc.runOn_dump hpos seed
  rw [heq] at hout hcontents
  refine ⟨hcontents, listing, hout, hmap, hall, fun rid text ↦ ?_⟩
  constructor
  · rintro ⟨b, hb, htext⟩
    exact (((hall b hb).mem_iff rid text).1 htext).2
  · intro hrecord
    rw [recordAt?] at hrecord
    have hmem : rid.page ∈ listing.map (·.1.id) := by
      rw [hmap]
      exact List.mem_map.2
        ⟨rid.page.toNat, List.mem_range.2 (lt_of_record? hrecord), UInt32.ofNat_toNat⟩
    obtain ⟨b, hb, hid⟩ := List.mem_map.1 hmem
    exact ⟨b, hb, ((hall b hb).mem_iff rid text).2 ⟨hid.symm, hrecord⟩⟩

/-- A run that fails does not flush, and what it wrote before has no records. -/
theorem Session.record?_of_failing (hs : Session path dir) {seed : Nat}
    (hasks : Asks path line command) (hids : WithinIds dir.limit? (contentsAt path dir) command)
    (hrun : Undisturbed (Cli.run seed dir line).1 command)
    (hfails : (Cli.run seed dir line).1.code ≠ 0) (i : RecordId) :
    recordAt? path (Cli.run seed dir line).2 i = recordAt? path dir i := by
  obtain ⟨hopens, hc⟩ := hs.textFile
  obtain ⟨settings, hpos, hout, -, hlimit, hcontents⟩ := exists_run_eq hopens hasks seed
  rw [hout] at hfails hrun
  rw [recordAt?, hlimit, hcontents, recordAt?]
  cases command with
  | insert text =>
    obtain ⟨e, -, heq⟩ | ⟨rid, d, heq, -⟩ | ⟨-, hnot⟩ := hc.runOn_insert hpos seed text hids
    · rw [heq]
    · rw [heq] at hfails
      exact absurd rfl hfails
    · exact absurd hrun hnot
  | get rid => rw [(hc.runOn_get hpos seed rid).1]
  | delete rid =>
    obtain ⟨heq, -⟩ | ⟨d, heq, -⟩ := hc.runOn_delete hpos seed rid
    · rw [heq]
    · rw [heq] at hfails
      exact absurd rfl hfails
  | dropPage id =>
    obtain ⟨o, d, heq, -, ⟨-, -, hsame⟩ | ⟨hok, -⟩⟩ := hc.runOn_dropPage hpos seed id
    · rw [heq]
      exact hsame i
    · rw [heq, hok] at hfails
      exact absurd rfl hfails
  | dump =>
    obtain ⟨listing, heq, -⟩ := hc.runOn_dump hpos seed
    rw [heq]
  | fill => exact hrun.elim

/-! ## The map -/

/-- In the runs of the program the file at a path acts as a map of records. -/
structure ActsAsMap (path : String) (dir : Directory) : Prop extends StoresRecords path dir,
    ShowsRecords path dir, DeletesRecords path dir, DropsPages path dir, DumpsPages path dir where
  failing : ∀ seed line command, Asks path line command →
    WithinIds dir.limit? (contentsAt path dir) command →
    Undisturbed (run seed dir line).1 command → (run seed dir line).1.code ≠ 0 →
      ∀ i, recordAt? path (run seed dir line).2 i = recordAt? path dir i

/-- Runs of the program on one file, one after the other, act as a map of records that stays, with
whatever pools and policies they work. -/
theorem Session.actsAsPersistentMap (hs : Session path dir) : ActsAsMap path dir where
  toStoresRecords := hs.storesRecords
  toShowsRecords := hs.showsRecords
  toDeletesRecords := hs.deletesRecords
  toDropsPages := hs.dropsPages
  toDumpsPages := hs.dumpsPages
  failing _ _ _ hasks hids hrun hfails i := hs.record?_of_failing hasks hids hrun hfails i

/-- A line that stores a text of nine bytes, in a pool of one frame. -/
def someText : List String := ["-D", "db", "-p", "1", "insert", "some text"]

private theorem asks_someText : Asks "db" someText (.insert "some text") :=
  ⟨{ path := "db", pool := { frames := 1 } }, by cbv, rfl, Nat.one_pos⟩

private theorem start_empty : Session "db" {} ∧ contentsAt "db" {} = {} := by
  have hopen : ({} : Directory).openFile "db" .openOrCreate =
      (.ok (["db"], {}), ({} : Directory).put ["db"] (.file {})) := by cbv
  have hcontents : contentsAt "db" {} = {} := by rw [contentsAt, hopen]
  exact ⟨.start ⟨_, _, _, hopen⟩ hcontents, hcontents⟩

/-- Where there is no file yet, one run makes it and stores a record. A second one, with a pool of
another kind, shows the record in its list of all pages. -/
theorem Session.actsAsPersistentMap_twoRuns : ∃ rid : RecordId,
    (Cli.run 0 {} someText).1 = { code := 0, out := "inserted " ++ rid.text ++ "\n" } ∧
    ∃ listing, (∃ b ∈ listing, (rid, "some text") ∈ b.2) ∧
      (Cli.run 0 (Cli.run 0 {} someText).2 ["-D", "db", "-p", "2", "-r", "clock", "dump"]).1 =
        { code := 0, out := listingText listing } := by
  obtain ⟨hs, hcontents⟩ := start_empty
  have hlength : (Utf8.bytesOf "some text").length = 9 := by cbv
  have hids : Affords ({} : Directory).limit? (contentsAt "db" {}) (Utf8.bytesOf "some text") := by
    rw [hcontents]
    exact .inl (by decide)
  have hroom : HasRoom ({} : Directory).limit? (contentsAt "db" {}) := hasRoom_none _
  have hacts := Session.actsAsPersistentMap hs
  have hcode := hacts.insert_fits 0 _ _ asks_someText hids (by omega) (by omega) (.inl hroom)
  obtain ⟨rid, hout, -, -, hrecords⟩ := hacts.insert 0 _ _ asks_someText hids hcode
  have hlater : Session "db" (Cli.run 0 {} someText).2 :=
    .run 0 hs asks_someText hids (flushes_of_code hcode)
  have hdump : Asks "db" ["-D", "db", "-p", "2", "-r", "clock", "dump"] .dump :=
    ⟨{ path := "db", pool := { frames := 2, replacer := .clock } }, by cbv, rfl, Nat.two_pos⟩
  obtain ⟨-, listing, hshown, -, -, hlists⟩ :=
    (Session.actsAsPersistentMap hlater).dump 0 _ hdump
  have hrecord := (hrecords rid).trans (if_pos rfl)
  exact ⟨rid, hout, listing, (hlists rid "some text").2 hrecord, hshown⟩

end PagedStorage.Cli
