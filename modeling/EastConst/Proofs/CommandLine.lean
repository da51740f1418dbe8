import EastConst.CommandLine
import EastConst.Proofs.FileTree
import EastConst.Proofs.Text.Utf8

/-!
# Modes and failures

A run over files does the same work in all modes, and they differ in what they do with it. What
comes of a file hangs on that file alone (`relocation?`), so one that fails keeps no other from
being written, printed or checked. A file is not written if its text stays, and since texts are
written with the bytes that they are read from, it holds its output all the same
(`entry?_relocated`).

The main statement is `modes_agree`, for all trees of files and all command lines that ask for the
same settings and files.
-/

namespace EastConst.CommandLine

/-- The relocation of a file, if the file can be read and relocated. -/
def relocation? (options : Options) (read : String → Except ReadError (List UInt8))
    (path : String) :
    Option Relocated :=
  (read path).toOption.bind fun bytes => (relocateBytes options bytes).toOption

section

variable {options : Options} {read : String → Except ReadError (List UInt8)} {path : String}
  {paths : List String} {report : Report}

/-- The report on a file in three stages: its bytes are read, decoded and relocated, and each stage
can fail. -/
theorem Report.ofFile_eq (options : Options) (read : String → Except ReadError (List UInt8))
    (path : String) :
    Report.ofFile options read path =
      match read path with
      | .error cause => .error (.unreadable cause)
      | .ok bytes =>
        match decodeSource bytes with
        | .error cause => .error (.unrelocated cause)
        | .ok source =>
          match relocate options source with
          | .error cause => .error (.unrelocated cause)
          | .ok r => .ok ⟨path, source, r⟩ := by
  unfold Report.ofFile bytesOf
  cases read path with
  | error cause => rfl
  | ok bytes =>
    cases hsource : decodeSource bytes with
    | error cause => simp [hsource, bind, Except.bind, throw, throwThe, MonadExceptOf.throw]
    | ok source =>
      cases hr : relocate options source with
      | error cause => simp [hsource, hr, bind, Except.bind, throw, throwThe, MonadExceptOf.throw]
      | ok r => simp [hsource, hr, bind, Except.bind, pure, Except.pure]

theorem relocation?_eq (options : Options) (read : String → Except ReadError (List UInt8))
    (path : String) :
    relocation? options read path =
      (Report.ofFile options read path).toOption.map Report.relocated := by
  rw [Report.ofFile_eq, relocation?]
  cases read path with
  | error cause => rfl
  | ok bytes =>
    cases hsource : decodeSource bytes with
    | error cause => simp [relocateBytes, hsource, Except.bind, Except.toOption]
    | ok source =>
      cases hr : relocate options source with
      | error cause => simp [relocateBytes, hsource, hr, Except.bind, Except.toOption]
      | ok r => simp [relocateBytes, hsource, hr, Except.bind, Except.toOption]

/-- What comes of a file that can be read depends on its bytes alone. -/
theorem relocation?_of_read {bytes : List UInt8} (h : read path = .ok bytes) :
    relocation? options read path = (relocateBytes options bytes).toOption := by
  rw [relocation?, h]
  rfl

theorem Report.ofFile_eq_ok (h : Report.ofFile options read path = .ok report) :
    report.path = path ∧ ∃ bytes, read path = .ok bytes ∧ decodeSource bytes = .ok report.source ∧
      relocate options report.source = .ok report.relocated := by
  rw [Report.ofFile_eq] at h
  split at h
  · cases h
  split at h
  · cases h
  split at h
  · cases h
  · rename_i hread _ _ hsource _ _ hr
    cases h
    exact ⟨rfl, _, hread, hsource, hr⟩

theorem exists_report_of_relocation? {r : Relocated} (h : relocation? options read path = some r) :
    ∃ report, Report.ofFile options read path = .ok report ∧ report.relocated = r := by
  rw [relocation?_eq] at h
  cases hreport : Report.ofFile options read path with
  | error failure => rw [hreport] at h; cases h
  | ok report =>
    rw [hreport] at h
    exact ⟨report, rfl, Option.some.inj h⟩

/-- A file fails exactly if no relocation comes of it. -/
theorem Result.failed_iff : Result.failed (path, Report.ofFile options read path) = true ↔
    relocation? options read path = none := by
  rw [relocation?_eq, Option.map_eq_none_iff, Result.failed, Option.isNone_iff_eq_none]

theorem Result.changed_iff : Result.changed (path, Report.ofFile options read path) = true ↔
    ∃ report, Report.ofFile options read path = .ok report ∧ report.changed = true := by
  rw [Result.changed]
  cases Report.ofFile options read path with
  | error failure => simp [Except.toOption]
  | ok report => simp [Except.toOption]

theorem Result.stdout_print (options : Options) (read : String → Except ReadError (List UInt8))
    (path : String) :
    Result.stdout .print (path, Report.ofFile options read path) =
      ((relocation? options read path).map fun r => String.ofList r.output).getD "" := by
  rw [relocation?_eq]
  cases Report.ofFile options read path with
  | error failure => rfl
  | ok report => rfl

/-- In place, a file is written exactly if its text changes, and then with its output. -/
theorem Result.write?_inPlace_iff {w : String × List UInt8} :
    Result.write? .inPlace (path, Report.ofFile options read path) = some w ↔
      ∃ report, Report.ofFile options read path = .ok report ∧ report.changed = true ∧
        w = (path, Utf8.encode report.relocated.output) := by
  cases hreport : Report.ofFile options read path with
  | error failure => simp [Result.write?]
  | ok report =>
    have hpath := (Report.ofFile_eq_ok hreport).1
    cases hchanged : report.changed with
    | false => simp [Result.write?, hchanged]
    | true =>
      simp only [Result.write?, hchanged, if_true, hpath, Option.some.injEq, Except.ok.injEq,
        exists_eq_left', true_and]
      exact eq_comm

theorem any_results_iff {p : Result → Bool} :
    (results options read paths).any p = true ↔
      ∃ path ∈ paths, p (path, Report.ofFile options read path) = true := by
  rw [results, List.any_map, List.any_eq_true]
  rfl

end

/-! ## Runs over files -/

section

variable {settings : Settings} {mode : Mode} {read : String → Except ReadError (List UInt8)}
  {paths : List String}

/-- A run fails if one of its files does. -/
theorem code_eq_two_iff :
    (relocateFiles settings mode read paths).code = 2 ↔
      ∃ path ∈ paths, relocation? settings.options read path = none := by
  simp only [← Result.failed_iff, ← any_results_iff]
  change exitCode mode settings.strict (results settings.options read paths) = 2 ↔ _
  rw [exitCode]
  split
  · rename_i h
    exact iff_of_true rfl h
  · rename_i h
    refine iff_of_false ?_ h
    split <;> decide

/-- Where no file fails and diagnostics are no failures, a check finds whether a file changes. -/
theorem code_check_eq_one_iff (hstrict : settings.strict = false)
    (hpaths : ∀ path ∈ paths, relocation? settings.options read path ≠ none) :
    (relocateFiles settings .check read paths).code = 1 ↔
      ∃ path ∈ paths, ∃ report, Report.ofFile settings.options read path = .ok report ∧
        report.changed = true := by
  have hfailed : ¬ (results settings.options read paths).any Result.failed = true := by
    rw [any_results_iff]
    rintro ⟨path, hpath, hfailed⟩
    exact hpaths path hpath (Result.failed_iff.1 hfailed)
  simp only [← Result.changed_iff, ← any_results_iff]
  change exitCode .check settings.strict (results settings.options read paths) = 1 ↔ _
  rw [exitCode, if_neg hfailed, hstrict]
  simp

/-- A print gives the outputs of the files that can be relocated, in the order of the paths. -/
theorem stdout_print (settings : Settings) (read : String → Except ReadError (List UInt8))
    (paths : List String) :
    (relocateFiles settings .print read paths).stdout =
      String.join ((paths.filterMap (relocation? settings.options read)).map fun r =>
        String.ofList r.output) := by
  change String.join ((results settings.options read paths).map (Result.stdout .print)) = _
  rw [results]
  induction paths with
  | nil => rfl
  | cons path rest ih =>
    rw [List.map_cons, List.map_cons, String.join_cons, ih, Result.stdout_print,
      List.filterMap_cons]
    cases relocation? settings.options read path with
    | none => exact String.empty_append
    | some r => rw [List.map_cons, String.join_cons]; rfl

/-- Only in place are files written. -/
theorem writes_eq_nil (h : mode ≠ .inPlace) :
    (relocateFiles settings mode read paths).writes = [] := by
  change (results settings.options read paths).filterMap (Result.write? mode) = []
  rw [List.filterMap_eq_nil_iff]
  intro result _
  cases mode with
  | inPlace => exact absurd rfl h
  | print => rfl
  | check => rfl

/-- What a run in place writes: for each file whose text changes, its output. -/
theorem mem_writes_iff {w : String × List UInt8} :
    w ∈ (relocateFiles settings .inPlace read paths).writes ↔
      ∃ path ∈ paths, ∃ report, Report.ofFile settings.options read path = .ok report ∧
        report.changed = true ∧
        w = (path, Utf8.encode report.relocated.output) := by
  change w ∈ (results settings.options read paths).filterMap (Result.write? .inPlace) ↔ _
  simp only [results, List.filterMap_map, List.mem_filterMap, Function.comp_apply,
    Result.write?_inPlace_iff]

end

/-! ## Trees of files -/

/-- The tree after a run in place. -/
def treeAfter (settings : Settings) (tree : FileTree) (paths : List String) : FileTree :=
  tree.writeAll (relocateFiles settings .inPlace tree.read paths).writes

section

variable {settings : Settings} {tree : FileTree} {paths : List String} {path path' : String}
  {place : List String} {report report' : Report}

theorem encode_of_decodeSource {bytes : List UInt8} {source : List Char}
    (h : decodeSource bytes = .ok source) :
    Utf8.encode source = bytes := by
  unfold decodeSource at h
  split at h
  · rename_i hdecode
    cases h
    exact Utf8.encode_of_decode hdecode
  · cases h

/-- The source of a report is what the file holds. -/
theorem Report.entry?_of_leadsTo (h : Report.ofFile settings.options tree.read path = .ok report)
    (hlead : tree.LeadsTo path place) :
    tree.entry? place = some (.file (Utf8.encode report.source)) := by
  obtain ⟨-, bytes, hread, hsource, -⟩ := Report.ofFile_eq_ok h
  rw [encode_of_decodeSource hsource]
  exact (FileTree.read_eq_ok_iff_of_leadsTo hlead).1 hread

/-- Two reports on one file agree, whatever paths lead there. -/
theorem Report.eq_of_leadsTo (h : Report.ofFile settings.options tree.read path = .ok report)
    (h' : Report.ofFile settings.options tree.read path' = .ok report')
    (hlead : tree.LeadsTo path place) (hlead' : tree.LeadsTo path' place) :
    report.source = report'.source ∧ report.relocated = report'.relocated := by
  have hsource : report.source = report'.source := by
    have hentry := (Report.entry?_of_leadsTo h hlead).symm.trans
      (Report.entry?_of_leadsTo h' hlead')
    exact Utf8.encode_injective (FileTree.Entry.file.inj (Option.some.inj hentry))
  obtain ⟨-, -, -, -, hr⟩ := Report.ofFile_eq_ok h
  obtain ⟨-, -, -, -, hr'⟩ := Report.ofFile_eq_ok h'
  rw [hsource, hr'] at hr
  exact ⟨hsource, (Except.ok.inj hr).symm⟩

/-- A file that is relocated holds the output, be it written or not. -/
theorem entry?_relocated (hpath : path ∈ paths)
    (h : Report.ofFile settings.options tree.read path = .ok report)
    (hlead : tree.LeadsTo path place) :
    FileTree.entry? (treeAfter settings tree paths) place =
      some (.file (Utf8.encode report.relocated.output)) := by
  -- what is written to this place is written for another path to it
  have hwrites : ∀ w ∈ (relocateFiles settings .inPlace tree.read paths).writes,
      tree.LeadsTo w.1 place →
      report.changed = true ∧ w.2 = Utf8.encode report.relocated.output := by
    intro w hw hlead'
    obtain ⟨path', -, report', h', hchanged, rfl⟩ := mem_writes_iff.1 hw
    obtain ⟨hsource, hrelocated⟩ := Report.eq_of_leadsTo h h' hlead hlead'
    rw [Report.changed] at hchanged ⊢
    rw [hsource, hrelocated]
    exact ⟨hchanged, rfl⟩
  cases hchanged : report.changed with
  | true =>
    refine FileTree.entry?_writeAll (fun w hw hlead' => (hwrites w hw hlead').2) ?_
    exact ⟨_, mem_writes_iff.2 ⟨path, hpath, report, h, hchanged, rfl⟩, hlead⟩
  | false =>
    have hsame : report.relocated.output = report.source := by simpa [Report.changed] using hchanged
    rw [treeAfter, FileTree.entry?_writeAll_of_not, Report.entry?_of_leadsTo h hlead, hsame]
    intro w hw hlead'
    simp [(hwrites w hw hlead').1] at hchanged

/-- A path with a report leads to a file. -/
theorem exists_leadsTo_of_ofFile (h : Report.ofFile settings.options tree.read path = .ok report) :
    ∃ place, tree.LeadsTo path place := by
  obtain ⟨-, bytes, hread, -⟩ := Report.ofFile_eq_ok h
  obtain ⟨place, hresolve⟩ := FileTree.read_eq_ok_iff.1 hread
  exact ⟨place, bytes, hresolve⟩

/-- A path to a file that is relocated is read as its output afterwards. -/
theorem read_relocated (hpath : path ∈ paths) {r : Relocated}
    (h : relocation? settings.options tree.read path = some r) :
    (treeAfter settings tree paths).read path = .ok (Utf8.encode r.output) := by
  obtain ⟨report, hreport, rfl⟩ := exists_report_of_relocation? h
  obtain ⟨place, hlead⟩ := exists_leadsTo_of_ofFile hreport
  have hshape : tree.SameShape (treeAfter settings tree paths) := FileTree.SameShape.writeAll tree _
  have hlead' := hshape.leadsTo hlead
  exact (FileTree.read_eq_ok_iff_of_leadsTo hlead').2 (entry?_relocated hpath hreport hlead)

/-- A place stays as it is if no file that is relocated stands there. -/
theorem entry?_of_not_relocated
    (h : ∀ path ∈ paths, tree.LeadsTo path place →
      relocation? settings.options tree.read path = none) :
    FileTree.entry? (treeAfter settings tree paths) place = tree.entry? place := by
  apply FileTree.entry?_writeAll_of_not
  intro w hw hlead
  obtain ⟨path, hpath, report, hreport, -, rfl⟩ := mem_writes_iff.1 hw
  have hnone := h path hpath hlead
  rw [relocation?_eq, hreport] at hnone
  cases hnone

/-- A run in place changes the tree if one of its files changes. -/
theorem exists_changed_iff :
    (∃ path ∈ paths, ∃ report, Report.ofFile settings.options tree.read path = .ok report ∧
      report.changed = true) ↔
      ∃ place, FileTree.entry? (treeAfter settings tree paths) place ≠ tree.entry? place := by
  constructor
  · rintro ⟨path, hpath, report, hreport, hchanged⟩
    obtain ⟨place, hlead⟩ := exists_leadsTo_of_ofFile hreport
    refine ⟨place, ?_⟩
    rw [entry?_relocated hpath hreport hlead, Report.entry?_of_leadsTo hreport hlead]
    intro heq
    have houtput := Utf8.encode_injective (FileTree.Entry.file.inj (Option.some.inj heq))
    simp [Report.changed, houtput] at hchanged
  · rintro ⟨place, hplace⟩
    -- a file that is relocated stands there, and its output is another text
    have hrelocated : ∃ path ∈ paths, tree.LeadsTo path place ∧
        relocation? settings.options tree.read path ≠ none := by
      refine Classical.byContradiction fun hnot => hplace (entry?_of_not_relocated ?_)
      intro path hpath hlead
      exact Decidable.byContradiction fun hnone => hnot ⟨path, hpath, hlead, hnone⟩
    obtain ⟨path, hpath, hlead, hsome⟩ := hrelocated
    obtain ⟨r, hr⟩ := Option.ne_none_iff_exists'.1 hsome
    obtain ⟨report, hreport, rfl⟩ := exists_report_of_relocation? hr
    refine ⟨path, hpath, report, hreport, ?_⟩
    rw [entry?_relocated hpath hreport hlead, Report.entry?_of_leadsTo hreport hlead] at hplace
    rw [Report.changed, bne_iff_ne]
    intro houtput
    exact hplace (by rw [houtput])

end

/-! ## Command lines -/

/-- Whether a command line asks for files to be relocated, in a mode and with the settings that it
has in its surroundings. -/
def Asks (words : List String) (surroundings : Settings.Surroundings) (mode : Mode)
    (settings : Settings) (paths : List String) : Prop :=
  ∃ args, Arguments.parse words = .ok args ∧ args.has .dumpTokens = false ∧ args.mode = mode ∧
    args.settings surroundings = .ok settings ∧ args.files = paths

/-- What a command line does is fixed by its mode, its settings and its files. -/
theorem run_of_asks {words : List String} {surroundings : Settings.Surroundings} {mode : Mode}
    {settings : Settings} {paths : List String} (h : Asks words surroundings mode settings paths) :
    run words surroundings = .finished (relocateFiles settings mode surroundings.read paths) := by
  obtain ⟨args, hparse, hdump, rfl, hsettings, rfl⟩ := h
  rw [run, hparse]
  change args.run surroundings = _
  rw [Arguments.run, hsettings]
  change (if args.has .dumpTokens = true then _ else _) = _
  rw [hdump, if_neg (by decide)]

/-- An empty settings file leaves the defaults. -/
theorem settings_of_empty {args : Arguments} {read : String → Except ReadError (List UInt8)}
    (hread : read Arguments.projectFile = .ok [])
    (hsources : args.sources = ⟨[.file Arguments.projectFile false, .environment], []⟩)
    (hmacros : args.declMacros = []) : args.settings ⟨read, []⟩ = .ok {} := by
  have htext : Settings.fileText? read Arguments.projectFile = some [] := by
    rw [Settings.fileText?, Settings.findFile?, hread]
    rfl
  have hfile : Settings.fileEntries [] = .ok [] := rfl
  have hdecode : Settings.decode (Settings.toValue {}) = .ok {} := by
    have hsome : (Settings.decode (Settings.toValue {})).toOption = some {} := by decide +kernel
    cases hdecode : Settings.decode (Settings.toValue {}) with
    | error cause => rw [hdecode] at hsome; cases hsome
    | ok settings => rw [hdecode] at hsome; rw [Option.some.inj hsome]
  have hcollect : args.sources.collect ⟨read, []⟩ = .ok (Settings.toValue {}) := by
    rw [hsources, Settings.Sources.collect]
    simp only [List.foldlM_cons, Settings.Layer.entries, htext, hfile]
    rfl
  rw [Arguments.settings, Settings.Sources.resolve, hcollect]
  change (Settings.decode (Settings.toValue {})).map _ = _
  rw [hdecode, hmacros]
  rfl

/-- The three modes on the same files with the same settings. In place, each file that can be read
and relocated holds its output afterwards, and all else is as it was; a check and a print change
nothing. The run fails if one of its files does, the print gives the outputs of the others in order,
and the check finds whether the run in place changes a file. -/
theorem modes_agree {tree : FileTree} {environment : List (String × String)} {settings : Settings}
    {paths inPlace check print : List String}
    (hinPlace : Asks inPlace ⟨tree.read, environment⟩ .inPlace settings paths)
    (hcheck : Asks check ⟨tree.read, environment⟩ .check settings paths)
    (hprint : Asks print ⟨tree.read, environment⟩ .print settings paths) :
    ∃ written checked printed : Outcome,
      run inPlace ⟨tree.read, environment⟩ = .finished written ∧
      run check ⟨tree.read, environment⟩ = .finished checked ∧
      run print ⟨tree.read, environment⟩ = .finished printed ∧
      (∀ path ∈ paths, ∀ r, relocation? settings.options tree.read path = some r →
        (tree.writeAll written.writes).read path = .ok (Utf8.encode r.output)) ∧
      (∀ place, (∀ path ∈ paths, tree.LeadsTo path place →
        relocation? settings.options tree.read path = none) →
        FileTree.entry? (tree.writeAll written.writes) place = tree.entry? place) ∧
      (written.code = 2 ↔ ∃ path ∈ paths, relocation? settings.options tree.read path = none) ∧
      tree.writeAll checked.writes = tree ∧
      tree.writeAll printed.writes = tree ∧
      printed.stdout = String.join
        ((paths.filterMap (relocation? settings.options tree.read)).map fun r =>
          String.ofList r.output) ∧
      ((∀ path ∈ paths, relocation? settings.options tree.read path ≠ none) →
        settings.strict = false →
        (checked.code = 1 ↔ ∃ place,
         FileTree.entry? (tree.writeAll written.writes) place ≠ tree.entry? place)) := by
  refine ⟨_, _, _, run_of_asks hinPlace, run_of_asks hcheck, run_of_asks hprint, ?_, ?_,
    code_eq_two_iff, ?_, ?_, stdout_print _ _ _, ?_⟩
  · intro path hpath r hr
    exact read_relocated hpath hr
  · intro place hplace
    exact entry?_of_not_relocated hplace
  · rw [writes_eq_nil (by decide)]
    rfl
  · rw [writes_eq_nil (by decide)]
    rfl
  · intro hpaths hstrict
    rw [code_check_eq_one_iff hstrict hpaths]
    exact exists_changed_iff

/-- A file that is not UTF-8 fails, and the file after it is relocated all the same. -/
theorem modes_agree_with_failure :
    ∃ (tree : FileTree) (written printed checked : Outcome),
      tree.read "a.c" = .ok (Utf8.encode "const int x;".toList) ∧ tree.read "b.c" = .ok [0xFF] ∧
      run ["b.c", "a.c"] ⟨tree.read, []⟩ = .finished written ∧
      run ["b.c", "a.c", "--stdout"] ⟨tree.read, []⟩ = .finished printed ∧
      run ["--check", "a.c"] ⟨tree.read, []⟩ = .finished checked ∧
      written.code = 2 ∧ (tree.writeAll written.writes).read "a.c" =
        .ok (Utf8.encode "int const x;".toList) ∧
      printed.stdout = "int const x;" ∧ checked.code = 1 := by
  generalize htree : (⟨[([".westerly.toml"], .file []),
    (["a.c"], .file (Utf8.encode "const int x;".toList)),
    (["b.c"], .file [0xFF])]⟩ : FileTree) = tree
  have hroot : tree.entry? [] = some .directory := by
    rw [← htree]
    decide
  have hlead : tree.LeadsTo "a.c" ["a.c"] :=
    ⟨Utf8.encode "const int x;".toList, FileTree.resolve_name (by decide) (by decide) hroot
      (by rw [← htree]; decide +kernel)⟩
  have ha : tree.read "a.c" = .ok (Utf8.encode "const int x;".toList) :=
    (FileTree.read_eq_ok_iff_of_leadsTo hlead).2 (by rw [← htree]; decide +kernel)
  have hb : tree.read "b.c" = .ok [0xFF] := FileTree.read_eq_ok_iff.2
    ⟨_, FileTree.resolve_name (by decide) (by decide) hroot (by rw [← htree]; decide +kernel)⟩
  have hfile : tree.read Arguments.projectFile = .ok [] := FileTree.read_eq_ok_iff.2
    ⟨_, FileTree.resolve_name (by decide) (by decide) hroot (by rw [← htree]; decide +kernel)⟩
  have hra : relocation? {} tree.read "a.c" = some ⟨"int const x;".toList, []⟩ := by
    rw [relocation?_of_read ha]
    decide +kernel
  have hrb : relocation? {} tree.read "b.c" = none := by
    rw [relocation?_of_read hb]
    decide +kernel
  have hasks {words paths : List String} {mode : Mode} (args : Arguments)
      (hparse : Arguments.parse words = .ok args) (hdump : args.has .dumpTokens = false)
      (hmode : args.mode = mode) (hpaths : args.files = paths)
      (hsources : args.sources = ⟨[.file Arguments.projectFile false, .environment], []⟩)
      (hmacros : args.declMacros = []) : Asks words ⟨tree.read, []⟩ mode {} paths :=
    ⟨args, hparse, hdump, hmode, settings_of_empty hfile hsources hmacros, hpaths⟩
  -- both files, and then only the one that does not fail
  have hboth : Asks ["b.c", "a.c"] ⟨tree.read, []⟩ .inPlace {} ["b.c", "a.c"] :=
    hasks _ rfl rfl rfl rfl rfl rfl
  have hone : Asks ["a.c"] ⟨tree.read, []⟩ .inPlace {} ["a.c"] := hasks _ rfl rfl rfl rfl rfl rfl
  have hboth' : Asks ["b.c", "a.c", "--check"] ⟨tree.read, []⟩ .check {} ["b.c", "a.c"] :=
    hasks _ rfl rfl rfl rfl rfl rfl
  have hone' : Asks ["--check", "a.c"] ⟨tree.read, []⟩ .check {} ["a.c"] :=
    hasks _ rfl rfl rfl rfl rfl rfl
  have hboth'' : Asks ["b.c", "a.c", "--stdout"] ⟨tree.read, []⟩ .print {} ["b.c", "a.c"] :=
    hasks _ rfl rfl rfl rfl rfl rfl
  have hone'' : Asks ["a.c", "--stdout"] ⟨tree.read, []⟩ .print {} ["a.c"] :=
    hasks _ rfl rfl rfl rfl rfl rfl
  obtain ⟨written, -, printed, hwritten, -, hprinted, hread, -, hcode, -, -, hstdout, -⟩ :=
    modes_agree hboth hboth' hboth''
  obtain ⟨written', checked, -, -, hchecked, -, hread', -, -, -, -, -, hcheck⟩ :=
    modes_agree hone hone' hone''
  refine ⟨tree, written, printed, checked, ha, hb, hwritten, hprinted, hchecked,
    hcode.2 ⟨"b.c", by decide, hrb⟩, hread _ (by decide) _ hra, ?_, ?_⟩
  · rw [hstdout, List.filterMap_cons_none hrb, List.filterMap_cons_some hra]
    rfl
  · refine (hcheck ?_ rfl).2 ⟨["a.c"], ?_⟩
    · intro path hpath
      rw [List.mem_singleton.1 hpath, hra]
      simp
    · have hlead' := (FileTree.SameShape.writeAll tree written'.writes).leadsTo hlead
      rw [(FileTree.read_eq_ok_iff_of_leadsTo hlead').1 (hread' _ (by decide) _ hra),
        (FileTree.read_eq_ok_iff_of_leadsTo hlead).1 ha]
      decide +kernel

end EastConst.CommandLine
