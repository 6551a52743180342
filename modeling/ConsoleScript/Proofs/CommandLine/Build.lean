import ConsoleScript.CommandLine.Build
import ConsoleScript.Proofs.Code.Block
import ConsoleScript.Proofs.Executable.Codec

/-!
# What builds change

A build writes the executable of its source, in one write and as its last step, or it
changes nothing. What it reports can be read off the file.

## Implementation notes

A storage is anything that is seen as files with contents, in which a read changes nothing
and a write that is not possible does not either. Files and paths are told apart, since
more than one path may lead to a file.
-/

namespace ConsoleScript

/-! ### Storages -/

section Storage

variable {σ : Type} [Storage (StateM σ)]

/-- What reading a path gives in a state, and the state behind it. -/
def Storage.readAt (path : String) (s : σ) : Option Bytes × σ :=
  (Storage.read? path : StateM σ (Option Bytes)).run s

/-- Whether writing to a path is possible in a state, and the state behind it. -/
def Storage.writeAt (path : String) (content : Bytes) (s : σ) : Bool × σ :=
  (Storage.write path content : StateM σ Bool).run s

/-- The outcome of a build in a state, and the state behind it. -/
def BuildOptions.buildAt (o : BuildOptions) (s : σ) : Except BuildError BuildReport × σ :=
  (o.build : StateM σ (Except BuildError BuildReport)).run s

end Storage

/-- States seen as files with contents. A path leads to one file or to none. -/
structure FileView (σ : Type) where
  File : Type
  file? : String → Option File
  content? : σ → File → Option Bytes

namespace FileView

variable {σ : Type}

/-- Between the states the path's file gets a content, and no other file changes. -/
def ChangesOnly (v : FileView σ) (path : String) (content : Bytes) (s s' : σ) : Prop :=
  ∃ file, v.file? path = some file ∧ v.content? s' file = some content ∧
    ∀ other, other ≠ file → v.content? s' other = v.content? s other

/-- Reads and writes do to the files what they are meant to do, or nothing. -/
structure IsLawful [Storage (StateM σ)] (v : FileView σ) : Prop where
  /-- A read changes nothing and gives the content of the path's file, if anything. -/
  read (path : String) (s : σ) : (Storage.readAt path s).2 = s ∧
    ∀ content ∈ (Storage.readAt path s).1,
      (v.file? path).bind (v.content? s) = some content
  /-- A write changes the path's file, or it is not possible and changes nothing. -/
  write (path : String) (content : Bytes) (s : σ) :
    (∃ s', Storage.writeAt path content s = (true, s') ∧ v.ChangesOnly path content s s') ∨
      Storage.writeAt path content s = (false, s)

theorem IsLawful.changesOnly_of_writeAt [Storage (StateM σ)] {v : FileView σ} (hv : v.IsLawful)
    {path : String} {content : Bytes} {s s' : σ}
    (h : Storage.writeAt path content s = (true, s')) : v.ChangesOnly path content s s' := by
  rcases hv.write path content s with ⟨t, hwrite, hchanges⟩ | hwrite
  · rw [h] at hwrite
    cases hwrite
    exact hchanges
  · rw [h] at hwrite
    cases hwrite

theorem IsLawful.state_of_writeAt [Storage (StateM σ)] {v : FileView σ} (hv : v.IsLawful)
    {path : String} {content : Bytes} {s s' : σ}
    (h : Storage.writeAt path content s = (false, s')) : s' = s := by
  rcases hv.write path content s with ⟨t, hwrite, -⟩ | hwrite
  · rw [h] at hwrite
    cases hwrite
  · rw [h] at hwrite
    exact (Prod.mk.inj hwrite).2

end FileView

namespace Directory

/-- A name in which no step ends names a file of the directory. -/
theorem fileName?_eq_self {name : String} (hsteps : name.splitOn "/" = [name])
    (hdots : name ∉ ["", ".", ".."]) (hsize : name.utf8ByteSize ≤ 255)
    (hzero : '\x00' ∉ name.toList) : fileName? name = some name := by
  have hname : ¬(name ∈ ["", ".", ".."] ∨ 255 < name.utf8ByteSize ∨ name.contains '\x00') := by
    rintro (hdot | hlong | hcontains)
    · exact hdots hdot
    · omega
    · exact hzero (by simpa using hcontains)
  rw [fileName?, hsteps]
  exact if_neg hname

/-- The files of a directory. -/
def view : FileView Directory := ⟨String, fileName?, find?⟩

theorem readAt_eq (path : String) (d : Directory) :
    Storage.readAt path d = ((fileName? path).bind d.find?, d) := rfl

theorem writeAt_eq (path : String) (content : Bytes) (d : Directory) :
    Storage.writeAt path content d =
      match fileName? path with
      | none => (false, d)
      | some name => (true, d.insert name content) := rfl

theorem isLawful_view : view.IsLawful where
  read path d := ⟨rfl, fun _ => id⟩
  write path content d := by
    rw [writeAt_eq]
    cases hname : fileName? path with
    | none => exact .inr rfl
    | some name =>
        refine .inl ⟨_, rfl, name, hname, d.find?_insert_self name content, ?_⟩
        intro other hother
        exact d.find?_insert_of_ne content hother

end Directory

/-! ### What is produced -/

variable {options : CompileOptions} {source file : Bytes} {p : Program}

/-- The code of a program ends with an exit already. -/
theorem closed_code_of_compile (h : compile options source = .ok p) : p.code.closed = p.code := by
  obtain ⟨-, -, rfl⟩ := compile_eq_ok_iff_read.mp h
  rw [Program.ofBlocks, ← CodeBuffer.closed_ofInstructions]
  exact CodeBuffer.closed_of_endsWithExit (CodeBuffer.endsWithExit_closed _)

/-- The executable of a program. -/
def Program.executable (p : Program) : Executable := ⟨p.flags, p.code.toList⟩

/-- The file of a program that compiles has the program's code and nothing behind it. -/
theorem finish_code_of_compile (h : compile options source = .ok p)
    (hfits : p.executable.Fits) : p.code.finish p.flags = .ok p.executable.encode := by
  rw [CodeBuffer.finish, closed_code_of_compile h]
  exact if_pos hfits

theorem compileExecutable_of_compile (h : compile options source = .ok p)
    (hfits : p.executable.Fits) :
    compileExecutable options source = .ok p.executable.encode := by
  apply bind_eq_ok_iff.mpr
  refine ⟨p, h, ?_⟩
  rw [finish_code_of_compile h hfits]
  rfl

theorem run_parse_encode_executable (hfits : p.executable.Fits) :
    Executable.parse.run p.executable.encode =
      .ok ({ flags := p.flags, code := p.code.toList, version := 1 }, []) := by
  have hparse := Executable.run_parse_encode_append hfits []
  rw [List.append_nil] at hparse
  exact hparse

namespace BuildReport

/-- What the report tells about the file of a program is so. -/
structure IsTruthful (r : BuildReport) (o : BuildOptions) (p : Program) (file : Bytes) : Prop where
  output : r.output = o.output
  codeLength : r.codeLength = Executable.announcedLength file
  flags : file[5]? = some r.flags.bits
  dump : o.has .dump = true → ∃ l, Listing.decode p.code.toList = .ok l ∧
    r.dump? = some (if o.has .json then l.json else l.text)
  no_dump : o.has .dump = false → r.dump? = none

end BuildReport

namespace BuildOptions

variable {o : BuildOptions} {report : BuildReport} {code : Bytes} {text? : Option String}

theorem dump?_of_has_dump (h : o.has .dump = true) :
    o.dump? code = .ok text? ↔ ∃ l, Listing.decode code = .ok l ∧
      text? = some (if o.has .json then l.json else l.text) := by
  rw [dump?, if_pos h, bind_eq_ok_iff]
  refine exists_congr fun l => and_congr_right fun _ => ?_
  constructor
  · intro heq
    cases heq
    rfl
  · rintro rfl
    rfl

theorem dump?_of_not_has_dump (h : o.has .dump = false) : o.dump? code = .ok none := by
  rw [dump?, h]
  rfl

theorem exists_dump?_eq_ok_iff :
    (∃ text?, o.dump? code = .ok text?) ↔
      (o.has .dump = true → ∃ l, Listing.decode code = .ok l) := by
  cases hdump : o.has .dump with
  | false =>
      constructor
      · intro _ hfalse
        cases hfalse
      · intro _
        exact ⟨none, dump?_of_not_has_dump hdump⟩
  | true =>
      constructor
      · rintro ⟨text?, h⟩ -
        obtain ⟨l, hl, -⟩ := (dump?_of_has_dump hdump).mp h
        exact ⟨l, hl⟩
      · intro h
        obtain ⟨l, hl⟩ := h rfl
        exact ⟨_, (dump?_of_has_dump hdump).mpr ⟨l, hl, rfl⟩⟩

/-- A file is produced of what compiles to code that can be listed if it has to be. -/
theorem produce_eq_ok_iff {report : BuildReport} :
    o.produce source = .ok (file, report) ↔
      ∃ p text?, compile o.compileOptions source = .ok p ∧ o.dump? p.code.toList = .ok text? ∧
        p.code.finish p.flags = .ok file ∧ report = ⟨o.output, p.code.size, p.flags, text?⟩ := by
  constructor
  · intro h
    obtain ⟨p, hp, h⟩ := bind_eq_ok_iff.mp h
    obtain ⟨text?, htext, h⟩ := bind_eq_ok_iff.mp h
    obtain ⟨file', hfile, h⟩ := bind_eq_ok_iff.mp h
    cases h
    exact ⟨p, text?, mapError_eq_ok_iff.mp hp, mapError_eq_ok_iff.mp htext,
      mapError_eq_ok_iff.mp hfile, rfl⟩
  · rintro ⟨p, text?, hp, htext, hfile, rfl⟩
    apply bind_eq_ok_iff.mpr
    refine ⟨p, mapError_eq_ok_iff.mpr hp, ?_⟩
    apply bind_eq_ok_iff.mpr
    refine ⟨text?, mapError_eq_ok_iff.mpr htext, ?_⟩
    apply bind_eq_ok_iff.mpr
    exact ⟨file, mapError_eq_ok_iff.mpr hfile, rfl⟩

/-- What a build reports is so of the file that it produces. -/
theorem isTruthful_of_produce (hp : compile o.compileOptions source = .ok p)
    (hfits : p.executable.Fits) (h : o.produce source = .ok (file, report)) :
    file = p.executable.encode ∧ report.IsTruthful o p file := by
  obtain ⟨q, text?, hq, htext, hfile, rfl⟩ := produce_eq_ok_iff.mp h
  obtain rfl : p = q := Except.ok.inj (hp.symm.trans hq)
  rw [finish_code_of_compile hp hfits] at hfile
  cases hfile
  refine ⟨rfl, rfl, ?_, rfl, ?_, ?_⟩
  · rw [Executable.announcedLength_encode hfits]
    exact CodeBuffer.length_toList.symm
  · intro hdump
    exact (dump?_of_has_dump hdump).mp htext
  · intro hdump
    rw [dump?_of_not_has_dump hdump] at htext
    exact (Except.ok.inj htext).symm

/-! ### Builds in a state -/

theorem run_bind_of_run_eq {σ α β : Type} {x : StateM σ α} {f : α → StateM σ β} {s s' : σ} {a : α}
    (h : x.run s = (a, s')) : (x >>= f).run s = (f a).run s' := by
  rw [StateT.run_bind, h]
  rfl

section Build

variable {σ : Type} [Storage (StateM σ)] {v : FileView σ} {s s' : σ} {e : BuildError}

/-- A build reads, produces the executable and writes it as its last step. -/
theorem buildAt_eq (hv : v.IsLawful) (o : BuildOptions) (s : σ) :
    o.buildAt s =
      match (Storage.readAt o.input s).1 with
      | none => (.error (.unreadable o.input), s)
      | some source =>
        match o.produce source with
        | .error e => (.error e, s)
        | .ok (file, report) =>
          match Storage.writeAt o.output file s with
          | (true, s') => (.ok report, s')
          | (false, s') => (.error (.unwritable o.output), s') := by
  obtain ⟨hstate, -⟩ := hv.read o.input s
  rcases hread : Storage.readAt o.input s with ⟨_ | source, t⟩
  all_goals
    rw [hread] at hstate
    obtain rfl : t = s := hstate
    rw [buildAt, build, run_bind_of_run_eq hread]
  case none => rfl
  case some =>
    cases hproduce : o.produce source with
    | error e =>
        simp only [hproduce]
        rfl
    | ok produced =>
        obtain ⟨file, report⟩ := produced
        simp only [hproduce]
        rcases hwrite : Storage.writeAt o.output file t with ⟨_ | _, s'⟩
        all_goals
          rw [run_bind_of_run_eq hwrite]
          rfl

theorem buildAt_eq_ok_iff (hv : v.IsLawful) :
    o.buildAt s = (.ok report, s') ↔
      ∃ source file, (Storage.readAt o.input s).1 = some source ∧
        o.produce source = .ok (file, report) ∧
        Storage.writeAt o.output file s = (true, s') := by
  rw [buildAt_eq hv]
  constructor
  · intro h
    split at h
    case h_1 => cases h
    case h_2 source hread =>
      split at h
      case h_1 => cases h
      case h_2 file report' hproduce =>
        split at h
        case h_1 t hwrite =>
          cases h
          exact ⟨source, file, hread, hproduce, hwrite⟩
        case h_2 => cases h
  · rintro ⟨source, file, hread, hproduce, hwrite⟩
    simp only [hread, hproduce, hwrite]

/-- A build that fails leaves the storage as it was. -/
theorem state_of_buildAt_eq_error (hv : v.IsLawful) (h : o.buildAt s = (.error e, s')) :
    s' = s := by
  rw [buildAt_eq hv] at h
  split at h
  case h_1 =>
    cases h
    rfl
  case h_2 source hread =>
    split at h
    case h_1 =>
      cases h
      rfl
    case h_2 file report hproduce =>
      split at h
      case h_1 => cases h
      case h_2 t hwrite =>
        cases h
        exact hv.state_of_writeAt hwrite

/-- What is written depends on the source and on the options of its compilation. -/
theorem file_eq_of_produce {o' : BuildOptions} {file' : Bytes} {report' : BuildReport}
    (hoptions : o'.compileOptions = o.compileOptions)
    (h : o.produce source = .ok (file, report)) (h' : o'.produce source = .ok (file', report')) :
    file' = file := by
  obtain ⟨p, -, hp, -, hfile, -⟩ := produce_eq_ok_iff.mp h
  obtain ⟨p', -, hp', -, hfile', -⟩ := produce_eq_ok_iff.mp h'
  rw [hoptions, hp] at hp'
  cases hp'
  exact Except.ok.inj (hfile'.symm.trans hfile)

/-- A build whose code fits the header of an executable succeeds exactly if the source is
read and compiles, the code can be listed if that is asked for, and the executable is
written. Then no file but the output has changed. The output is the executable of the source,
reading it gives the code and the facilities and leaves nothing, and what is reported is so.
A build that fails changes nothing. Builds that ask for other reports end in the same state
if they succeed. -/
theorem build_all_or_nothing (hv : v.IsLawful) (o : BuildOptions) (s : σ)
    (hfits : ∀ source p, (Storage.readAt o.input s).1 = some source →
      compile o.compileOptions source = .ok p → p.code.size < 0x100000000) :
    ((∃ report, (o.buildAt s).1 = .ok report) ↔
      ∃ source p, (Storage.readAt o.input s).1 = some source ∧
        compile o.compileOptions source = .ok p ∧
        (o.has .dump = true → ∃ l, Listing.decode p.code.toList = .ok l) ∧
        (Storage.writeAt o.output p.executable.encode s).1 = true) ∧
    (∀ report s', o.buildAt s = (.ok report, s') →
      ∃ source p file, (Storage.readAt o.input s).1 = some source ∧
        compile o.compileOptions source = .ok p ∧
        compileExecutable o.compileOptions source = .ok file ∧
        v.ChangesOnly o.output file s s' ∧
        Executable.parse.run file =
          .ok ({ flags := p.flags, code := p.code.toList, version := 1 }, []) ∧
        report.IsTruthful o p file) ∧
    (∀ e s', o.buildAt s = (.error e, s') → s' = s) ∧
    ∀ o' : BuildOptions, o'.input = o.input → o'.output = o.output →
      o'.maxVariables = o.maxVariables → o'.has .checkedJumps = o.has .checkedJumps →
        ∀ report s' report' s'', o.buildAt s = (.ok report, s') →
          o'.buildAt s = (.ok report', s'') → s'' = s' := by
  have hexecutable : ∀ source p, (Storage.readAt o.input s).1 = some source →
      compile o.compileOptions source = .ok p → p.executable.Fits := by
    intro source p hread hp
    exact (CodeBuffer.length_toList (c := p.code)).trans_lt (hfits source p hread hp)
  refine ⟨⟨?_, ?_⟩, ?_, fun e s' => state_of_buildAt_eq_error hv, ?_⟩
  · rintro ⟨report, hreport⟩
    have h : o.buildAt s = (.ok report, (o.buildAt s).2) := Prod.ext hreport rfl
    obtain ⟨source, file, hread, hproduce, hwrite⟩ := (buildAt_eq_ok_iff hv).mp h
    obtain ⟨p, text?, hp, htext, -, -⟩ := produce_eq_ok_iff.mp hproduce
    obtain ⟨rfl, -⟩ := isTruthful_of_produce hp (hexecutable source p hread hp) hproduce
    exact ⟨source, p, hread, hp, exists_dump?_eq_ok_iff.mp ⟨text?, htext⟩,
      congrArg Prod.fst hwrite⟩
  · rintro ⟨source, p, hread, hp, hlist, hwrite⟩
    obtain ⟨text?, htext⟩ := exists_dump?_eq_ok_iff.mpr hlist
    have hproduce := produce_eq_ok_iff.mpr ⟨p, text?, hp, htext,
      finish_code_of_compile hp (hexecutable source p hread hp), rfl⟩
    have hbuild := (buildAt_eq_ok_iff hv).mpr ⟨source, _, hread, hproduce, Prod.ext hwrite rfl⟩
    exact ⟨_, congrArg Prod.fst hbuild⟩
  · intro report s' h
    obtain ⟨source, file, hread, hproduce, hwrite⟩ := (buildAt_eq_ok_iff hv).mp h
    obtain ⟨p, -, hp, -, -, -⟩ := produce_eq_ok_iff.mp hproduce
    have hexe := hexecutable source p hread hp
    obtain ⟨rfl, htrue⟩ := isTruthful_of_produce hp hexe hproduce
    exact ⟨source, p, _, hread, hp, compileExecutable_of_compile hp hexe,
      hv.changesOnly_of_writeAt hwrite, run_parse_encode_executable hexe, htrue⟩
  · intro o' hinput houtput hmax hchecked report s' report' s'' h h'
    obtain ⟨source, file, hread, hproduce, hwrite⟩ := (buildAt_eq_ok_iff hv).mp h
    obtain ⟨source', file', hread', hproduce', hwrite'⟩ := (buildAt_eq_ok_iff hv).mp h'
    rw [hinput, hread] at hread'
    cases hread'
    have hoptions : o'.compileOptions = o.compileOptions := by
      rw [compileOptions, compileOptions, hmax, hchecked]
    obtain rfl := file_eq_of_produce hoptions hproduce hproduce'
    rw [houtput, hwrite] at hwrite'
    cases hwrite'
    rfl

end Build

theorem build_all_or_nothing_of_dump_and_overwrite :
    ∃ d : Directory, d.find? "b" = some [7] ∧
      ∃ report, (buildAt ⟨"a", "b", [.json, .dump], 512⟩ d).1 = .ok report ∧
        report.codeLength = 4 ∧
        (buildAt ⟨"a", "b", [.json, .dump], 512⟩ d).2.find? "b" = some
          ([0x42, 0x45, 0x58, 0x45, 1, 0, 4, 0, 0, 0, 0, 0, 0, 0, 0, 0] ++ [0x02, 72, 0, 0xFF]) ∧
        ∀ name, name ≠ "b" →
          (buildAt ⟨"a", "b", [.json, .dump], 512⟩ d).2.find? name = d.find? name := by
  let d : Directory := ⟨[("a", Bytes.ofString "print \"H\";"), ("b", [7])]⟩
  let o : BuildOptions := ⟨"a", "b", [.json, .dump], 512⟩
  let p : Program := .ofBlocks [.statement (.print [72])] 0
  have hinput : Directory.fileName? o.input = some "a" := by
    have hsteps : "a".splitOn "/" = ["a"] := by
      rw [String.splitOn, if_neg (by decide), String.splitOnAux, if_neg (by decide),
        if_neg (by decide), String.splitOnAux, if_pos (by decide)]
      decide
    exact Directory.fileName?_eq_self hsteps (by decide) (by decide) (by decide)
  have houtput : Directory.fileName? o.output = some "b" := by
    have hsteps : "b".splitOn "/" = ["b"] := by
      rw [String.splitOn, if_neg (by decide), String.splitOnAux, if_neg (by decide),
        if_neg (by decide), String.splitOnAux, if_pos (by decide)]
      decide
    exact Directory.fileName?_eq_self hsteps (by decide) (by decide) (by decide)
  have hread : (Storage.readAt o.input d).1 = some (Bytes.ofString "print \"H\";") := by
    rw [Directory.readAt_eq, hinput]
    rfl
  have hwrite : (Storage.writeAt o.output p.executable.encode d).1 = true := by
    rw [Directory.writeAt_eq, houtput]
  have hcompile : compile o.compileOptions (Bytes.ofString "print \"H\";") = .ok p := by
    decide +kernel
  have hlist : ∃ l, Listing.decode p.code.toList = .ok l := by
    have hsome : (Listing.decode p.code.toList).toOption.isSome := by decide +kernel
    cases hdecode : Listing.decode p.code.toList with
    | error e =>
        rw [hdecode] at hsome
        cases hsome
    | ok l => exact ⟨l, rfl⟩
  have hfits : ∀ source q, (Storage.readAt o.input d).1 = some source →
      compile o.compileOptions source = .ok q → q.code.size < 0x100000000 := by
    intro source q hsource hq
    rw [hread] at hsource
    cases hsource
    rw [hcompile] at hq
    cases hq
    decide
  obtain ⟨hsucceeds, hchanges, -⟩ := build_all_or_nothing Directory.isLawful_view o d hfits
  obtain ⟨report, hreport⟩ := hsucceeds.mpr ⟨_, p, hread, hcompile, fun _ => hlist, hwrite⟩
  obtain ⟨source, q, file, hsource, -, hfile, ⟨name, hname, hcontent, hothers⟩, -, htrue⟩ :=
    hchanges report _ (Prod.ext hreport rfl)
  obtain rfl : Bytes.ofString "print \"H\";" = source := Option.some.inj (hread.symm.trans hsource)
  rw [compileExecutable_of_compile hcompile (by decide)] at hfile
  cases hfile
  obtain rfl : "b" = name := Option.some.inj (houtput.symm.trans hname)
  have hencode : p.executable.encode =
      [0x42, 0x45, 0x58, 0x45, 1, 0, 4, 0, 0, 0, 0, 0, 0, 0, 0, 0] ++ [0x02, 72, 0, 0xFF] := by
    decide
  rw [hencode] at hcontent
  exact ⟨d, rfl, report, hreport, htrue.codeLength.trans (by decide), hcontent, hothers⟩

end BuildOptions

end ConsoleScript
