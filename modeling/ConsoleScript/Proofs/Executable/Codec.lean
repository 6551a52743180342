import ConsoleScript.Executable.Parse
import ConsoleScript.Executable.Write
import ConsoleScript.Outcome

/-!
# Writing and reading executables

Reading undoes writing, and writing what was read gives back the bytes that were read, but
for the reserved ones. Which bytes are refused, and why, is decided by the front of the
header and by the length that it announces.
-/

namespace ConsoleScript

open Bytes

namespace FileReader

variable {α β : Type} {s rest front : Bytes} {n : Nat} {b : UInt8}

theorem run_bind_eq_ok_iff {r : FileReader α} {f : α → FileReader β} {y : β} :
    (r >>= f).run s = .ok (y, rest) ↔
      ∃ a t, r.run s = .ok (a, t) ∧ (f a).run t = .ok (y, rest) := by
  rw [StateT.run_bind, bind_eq_ok_iff]
  constructor
  · rintro ⟨⟨a, t⟩, ha, h⟩
    exact ⟨a, t, ha, h⟩
  · rintro ⟨a, t, ha, h⟩
    exact ⟨(a, t), ha, h⟩

theorem run_take_eq_ok_iff :
    (take n).run s = .ok (front, rest) ↔ front.length = n ∧ s = front ++ rest := by
  have htake : (take n).run s =
      if n ≤ s.length then .ok (s.take n, s.drop n) else .error .unexpectedEnd := rfl
  rw [htake]
  constructor
  · intro h
    split at h
    · cases h
      exact ⟨List.length_take_of_le (by assumption), (List.take_append_drop n s).symm⟩
    · cases h
  · rintro ⟨rfl, rfl⟩
    simp

/-- There are as many bytes at the front as there are at all. -/
theorem exists_eq_append_of_le (h : n ≤ s.length) :
    ∃ front rest, s = front ++ rest ∧ front.length = n :=
  ⟨s.take n, s.drop n, (List.take_append_drop n s).symm, List.length_take_of_le h⟩

theorem run_take_of_lt (h : s.length < n) : (take n).run s = .error .unexpectedEnd := by
  show (if n ≤ s.length then _ else _) = _
  rw [if_neg (Nat.not_le.mpr h)]

theorem run_next_eq_ok_iff : next.run s = .ok (b, rest) ↔ s = b :: rest := by
  constructor
  · intro h
    cases s with
    | nil => cases h
    | cons c t =>
        cases h
        rfl
  · rintro rfl
    rfl

/-- The reader refuses a file only where it ends too early. -/
def OnlyEnds (r : FileReader α) : Prop := ∀ s e, r.run s = .error e → e = .unexpectedEnd

theorem onlyEnds_pure (a : α) : OnlyEnds (pure a) := by
  intro s e h
  cases h

theorem onlyEnds_take (n : Nat) : OnlyEnds (take n) := by
  intro s e h
  rcases Nat.lt_or_ge s.length n with hlt | hle
  · rw [run_take_of_lt hlt] at h
    cases h
    rfl
  · obtain ⟨front, rest, hs, hlength⟩ := exists_eq_append_of_le hle
    rw [run_take_eq_ok_iff.mpr ⟨hlength, hs⟩] at h
    cases h

theorem onlyEnds_next : OnlyEnds next := by
  intro s e h
  cases s with
  | nil =>
      cases h
      rfl
  | cons b s => cases h

theorem OnlyEnds.bind {r : FileReader α} {f : α → FileReader β} (hr : OnlyEnds r)
    (hf : ∀ a, OnlyEnds (f a)) : OnlyEnds (r >>= f) := by
  intro s e h
  rw [StateT.run_bind] at h
  cases hs : r.run s with
  | error e' =>
      rw [hs] at h
      cases h
      exact hr s e hs
  | ok x =>
      rw [hs] at h
      exact hf x.1 x.2 e h

end FileReader

namespace Executable

variable {s t rest data : Bytes} {v : UInt8} {x : Executable} {y : Parsed}

/-! ### Writing -/

/-- What all parts together are written as if there is room. -/
theorem writeTo_of_fits (h : x.Fits) : x.writeTo {} = (.ok (), x.encode) := by
  have hparts : x.write {} = .ok () ⟨[] ++ magic ++ [formatVersion] ++ [x.flags.bits] ++
      littleEndian 4 x.code.length ++ reserved ++ x.code, none⟩ := by
    unfold write
    rw [if_pos h]
    rfl
  rw [writeTo, hparts]
  simp [encode, header]

/-! ### The header -/

theorem run_parseMagic_of_take_ne (hlength : magic.length ≤ s.length)
    (h : s.take magic.length ≠ magic) : parseMagic.run s = .error .badMagic := by
  have htake := FileReader.run_take_eq_ok_iff.mpr
    ⟨List.length_take_of_le hlength, (List.take_append_drop magic.length s).symm⟩
  rw [parseMagic, StateT.run_bind, htake]
  show (unless s.take magic.length = magic do throw _ : FileReader Unit).run _ = _
  rw [if_neg h]
  rfl

theorem run_parse_of_length_lt (h : s.length < magic.length) :
    parse.run s = .error .unexpectedEnd := by
  rw [parse, StateT.run_bind, parseMagic, StateT.run_bind, FileReader.run_take_of_lt h]
  rfl

theorem run_parse_of_take_ne (hlength : magic.length ≤ s.length)
    (h : s.take magic.length ≠ magic) : parse.run s = .error .badMagic := by
  rw [parse, StateT.run_bind, run_parseMagic_of_take_ne hlength h]
  rfl

theorem run_parseVersion_of_ne (h : v ≠ formatVersion) :
    parseVersion.run (v :: s) = .error (.unsupportedVersion v) := by
  show (unless v = formatVersion do throw _ : FileReader Unit).run s = _
  rw [if_neg h]
  rfl

theorem run_parse_of_version_ne (h : v ≠ formatVersion) :
    parse.run (magic ++ v :: s) = .error (.unsupportedVersion v) := by
  show (parseVersion >>= fun _ => parseContent).run (v :: s) = _
  rw [StateT.run_bind, run_parseVersion_of_ne h]
  rfl

theorem run_parse_of_version :
    parse.run (magic ++ formatVersion :: s) = parseContent.run s := rfl

/-- What a file starts with. -/
theorem front_cases (s : Bytes) :
    s.length < magic.length ∨ (magic.length ≤ s.length ∧ s.take magic.length ≠ magic) ∨
      s = magic ∨ (∃ v t, v ≠ formatVersion ∧ s = magic ++ v :: t) ∨
        ∃ t, s = magic ++ formatVersion :: t := by
  rcases Nat.lt_or_ge s.length magic.length with hlt | hle
  · exact .inl hlt
  by_cases hmagic : s.take magic.length = magic
  · obtain ⟨t, rfl⟩ : ∃ t, magic ++ t = s := List.prefix_iff_eq_take.mpr hmagic.symm
    cases t with
    | nil => exact .inr (.inr (.inl (List.append_nil magic)))
    | cons v t =>
        by_cases hversion : v = formatVersion
        · exact .inr (.inr (.inr (.inr ⟨t, by rw [hversion]⟩)))
        · exact .inr (.inr (.inr (.inl ⟨v, t, hversion, rfl⟩)))
  · exact .inr (.inl ⟨hle, hmagic⟩)

/-! ### What is read -/

theorem run_parseContent_eq_ok_iff :
    parseContent.run s = .ok (y, rest) ↔
      y.version = formatVersion ∧ y.Fits ∧ ∃ ignored : Bytes, ignored.length = reserved.length ∧
        s = y.flags.bits ::
          (littleEndian 4 y.code.length ++ (ignored ++ (y.code ++ rest))) := by
  constructor
  · intro h
    obtain ⟨bits, t₁, hbits, h⟩ := FileReader.run_bind_eq_ok_iff.mp h
    obtain ⟨length, t₂, hlength, h⟩ := FileReader.run_bind_eq_ok_iff.mp h
    obtain ⟨ignored, t₃, hignored, h⟩ := FileReader.run_bind_eq_ok_iff.mp h
    obtain ⟨code, t₄, hcode, h⟩ := FileReader.run_bind_eq_ok_iff.mp h
    cases h
    obtain rfl := FileReader.run_next_eq_ok_iff.mp hbits
    obtain ⟨hfour, rfl⟩ := FileReader.run_take_eq_ok_iff.mp hlength
    obtain ⟨hsix, rfl⟩ := FileReader.run_take_eq_ok_iff.mp hignored
    obtain ⟨hlong, rfl⟩ := FileReader.run_take_eq_ok_iff.mp hcode
    have hfits := ofLittleEndian_lt length
    have hstored := littleEndian_ofLittleEndian length
    rw [hfour, ← hlong] at hfits hstored
    refine ⟨rfl, hfits, ignored, hsix, ?_⟩
    rw [hstored]
  · rintro ⟨hversion, hfits, ignored, hsix, rfl⟩
    have hlength : ofLittleEndian (littleEndian 4 y.code.length) = y.code.length := by
      rw [ofLittleEndian_littleEndian]
      exact Nat.mod_eq_of_lt hfits
    apply FileReader.run_bind_eq_ok_iff.mpr
    refine ⟨y.flags.bits, _, FileReader.run_next_eq_ok_iff.mpr rfl, ?_⟩
    apply FileReader.run_bind_eq_ok_iff.mpr
    refine ⟨_, _, FileReader.run_take_eq_ok_iff.mpr ⟨length_littleEndian 4 _, rfl⟩, ?_⟩
    apply FileReader.run_bind_eq_ok_iff.mpr
    refine ⟨ignored, _, FileReader.run_take_eq_ok_iff.mpr ⟨hsix, rfl⟩, ?_⟩
    apply FileReader.run_bind_eq_ok_iff.mpr
    refine ⟨y.code, rest, FileReader.run_take_eq_ok_iff.mpr ⟨hlength.symm, rfl⟩, ?_⟩
    obtain ⟨x, version⟩ := y
    obtain rfl : version = formatVersion := hversion
    rfl

theorem onlyEnds_parseContent : FileReader.OnlyEnds parseContent :=
  FileReader.onlyEnds_next.bind fun _ => (FileReader.onlyEnds_take _).bind fun _ =>
    (FileReader.onlyEnds_take _).bind fun _ => (FileReader.onlyEnds_take _).bind fun _ =>
      FileReader.onlyEnds_pure _

/-- A file that is read starts with a header that fits the code section behind it, whatever
its reserved bytes are. -/
theorem run_parse_eq_ok_iff :
    parse.run s = .ok (y, rest) ↔
      y.version = formatVersion ∧ y.Fits ∧ ∃ ignored : Bytes, ignored.length = reserved.length ∧
        s = magic ++ formatVersion :: y.flags.bits ::
          (littleEndian 4 y.code.length ++ (ignored ++ (y.code ++ rest))) := by
  constructor
  · intro h
    rcases front_cases s with hlt | ⟨hle, hmagic⟩ | rfl | ⟨v, t, hversion, rfl⟩ | ⟨t, rfl⟩
    · rw [run_parse_of_length_lt hlt] at h
      cases h
    · rw [run_parse_of_take_ne hle hmagic] at h
      cases h
    · cases h
    · rw [run_parse_of_version_ne hversion] at h
      cases h
    · rw [run_parse_of_version, run_parseContent_eq_ok_iff] at h
      obtain ⟨hversion, hfits, ignored, hsix, rfl⟩ := h
      exact ⟨hversion, hfits, ignored, hsix, rfl⟩
  · rintro ⟨hversion, hfits, ignored, hsix, rfl⟩
    rw [run_parse_of_version]
    exact run_parseContent_eq_ok_iff.mpr ⟨hversion, hfits, ignored, hsix, rfl⟩

theorem run_parse_encode_append (hfits : x.Fits) (rest : Bytes) :
    parse.run (x.encode ++ rest) = .ok ({ x with version := formatVersion }, rest) := by
  refine run_parse_eq_ok_iff.mpr ⟨rfl, hfits, reserved, rfl, ?_⟩
  simp [encode, header]

/-- The length that the front of a file announces for its code section. -/
def announcedLength (data : Bytes) : Nat := ofLittleEndian ((data.drop 6).take 4)

/-- The file with zeros for its reserved bytes. -/
def clearReserved (data : Bytes) : Bytes := data.take 10 ++ reserved ++ data.drop headerSize

/-- The bytes start with a header of the known version and as much code as it announces. -/
structure StartsFile (data : Bytes) : Prop where
  header : headerSize ≤ data.length
  magic : data.take magic.length = Executable.magic
  version : data[4]? = some formatVersion
  code : headerSize + announcedLength data ≤ data.length

/-- Where a code section stands, whatever the reserved bytes in front of it are. -/
theorem announcedLength_and_clearReserved {bits : UInt8} {code ignored : Bytes}
    (hfits : code.length < range 4) (hsix : ignored.length = reserved.length)
    (hdata : data = magic ++ formatVersion :: bits ::
      (littleEndian 4 code.length ++ (ignored ++ (code ++ rest)))) :
    announcedLength data = code.length ∧
      clearReserved (data.take (headerSize + code.length)) = encode ⟨⟨bits⟩, code⟩ := by
  have hfront : (magic ++ formatVersion :: bits :: littleEndian 4 code.length).length = 10 := by
    simp [magic]
  constructor
  · rw [announcedLength, hdata]
    show ofLittleEndian ((littleEndian 4 code.length ++ _).take 4) = _
    rw [List.take_left' (length_littleEndian 4 _), ofLittleEndian_littleEndian]
    exact Nat.mod_eq_of_lt hfits
  · have hheader : (magic ++ formatVersion :: bits :: littleEndian 4 code.length ++
        ignored).length = headerSize := by
      rw [List.length_append, hfront, hsix]
      rfl
    have hwhole : data = magic ++ formatVersion :: bits :: littleEndian 4 code.length ++
        ignored ++ code ++ rest := by
      rw [hdata]
      simp
    have htake : data.take (headerSize + code.length) =
        magic ++ formatVersion :: bits :: littleEndian 4 code.length ++ ignored ++ code := by
      rw [hwhole]
      exact List.take_left' (by rw [List.length_append, hheader])
    have hback : (magic ++ formatVersion :: bits :: littleEndian 4 code.length ++ ignored ++
        code).drop headerSize = code := List.drop_left' hheader
    have hten : (magic ++ formatVersion :: bits :: littleEndian 4 code.length ++ ignored ++
        code).take 10 = magic ++ formatVersion :: bits :: littleEndian 4 code.length := by
      rw [List.append_assoc]
      exact List.take_left' hfront
    rw [htake, clearReserved, hten, hback]
    simp [encode, Executable.header]

theorem announcedLength_encode (hfits : x.Fits) : announcedLength x.encode = x.code.length := by
  have hdata : x.encode = magic ++ formatVersion :: x.flags.bits ::
      (littleEndian 4 x.code.length ++ (reserved ++ (x.code ++ []))) := by
    simp [encode, header]
  exact (announcedLength_and_clearReserved hfits rfl hdata).1

/-! ### What is refused -/

theorem exists_eq_magic_append_cons_iff :
    (∃ t, data = magic ++ v :: t) ↔ data.take magic.length = magic ∧ data[4]? = some v := by
  constructor
  · rintro ⟨t, rfl⟩
    exact ⟨rfl, rfl⟩
  · rintro ⟨hmagic, hversion⟩
    obtain ⟨t, rfl⟩ : ∃ t, magic ++ t = data := List.prefix_iff_eq_take.mpr hmagic.symm
    obtain ⟨t, rfl⟩ : ∃ u, t = v :: u := by
      cases t with
      | nil => cases hversion
      | cons b u =>
          cases hversion
          exact ⟨u, rfl⟩
    exact ⟨t, rfl⟩

theorem run_parse_eq_badMagic_iff :
    parse.run data = .error .badMagic ↔
      magic.length ≤ data.length ∧ data.take magic.length ≠ magic := by
  constructor
  · intro h
    rcases front_cases data with hlt | hne | rfl | ⟨v, t, hversion, rfl⟩ | ⟨t, rfl⟩
    · rw [run_parse_of_length_lt hlt] at h
      cases h
    · exact hne
    · cases h
    · rw [run_parse_of_version_ne hversion] at h
      cases h
    · rw [run_parse_of_version] at h
      cases onlyEnds_parseContent t _ h
  · rintro ⟨hle, hne⟩
    exact run_parse_of_take_ne hle hne

theorem run_parse_eq_unsupportedVersion_iff :
    parse.run data = .error (.unsupportedVersion v) ↔
      data.take magic.length = magic ∧ data[4]? = some v ∧ v ≠ formatVersion := by
  constructor
  · intro h
    rcases front_cases data with hlt | ⟨hle, hne⟩ | rfl | ⟨w, t, hversion, rfl⟩ | ⟨t, rfl⟩
    · rw [run_parse_of_length_lt hlt] at h
      cases h
    · rw [run_parse_of_take_ne hle hne] at h
      cases h
    · cases h
    · rw [run_parse_of_version_ne hversion] at h
      cases h
      exact ⟨rfl, rfl, hversion⟩
    · rw [run_parse_of_version] at h
      cases onlyEnds_parseContent t _ h
  · rintro ⟨hmagic, hget, hversion⟩
    obtain ⟨t, rfl⟩ := exists_eq_magic_append_cons_iff.mpr ⟨hmagic, hget⟩
    exact run_parse_of_version_ne hversion

/-- A file is read exactly if it starts with all that its header announces. -/
theorem exists_run_parse_eq_ok_iff :
    (∃ y rest, parse.run data = .ok (y, rest)) ↔ StartsFile data := by
  constructor
  · rintro ⟨y, rest, h⟩
    obtain ⟨-, hfits, ignored, hsix, hdata⟩ := run_parse_eq_ok_iff.mp h
    obtain ⟨hlength, -⟩ := announcedLength_and_clearReserved hfits hsix hdata
    obtain ⟨hmagic, hversion⟩ := exists_eq_magic_append_cons_iff.mp ⟨_, hdata⟩
    have hcount : data.length = headerSize + y.code.length + rest.length := by
      rw [hdata]
      simp [magic, hsix, reserved, headerSize]
      omega
    exact ⟨by omega, hmagic, hversion, by rw [hlength]; omega⟩
  · rintro ⟨hheader, hmagic, hversion, hcode⟩
    obtain ⟨t, rfl⟩ := exists_eq_magic_append_cons_iff.mpr ⟨hmagic, hversion⟩
    obtain ⟨bits, t, rfl⟩ : ∃ bits u, t = bits :: u := by
      cases t with
      | nil => exact absurd hheader (by decide)
      | cons bits u => exact ⟨bits, u, rfl⟩
    simp only [List.length_append, List.length_cons, magic, headerSize, List.length_nil]
      at hheader hcode
    obtain ⟨length, t, rfl, hfour⟩ := FileReader.exists_eq_append_of_le (show 4 ≤ t.length by omega)
    rw [List.length_append] at hheader hcode
    obtain ⟨ignored, t, rfl, hsix⟩ := FileReader.exists_eq_append_of_le (show 6 ≤ t.length by omega)
    rw [List.length_append] at hcode
    have hannounced : announcedLength ([0x42, 0x45, 0x58, 0x45] ++ formatVersion :: bits ::
        (length ++ (ignored ++ t))) = ofLittleEndian length :=
      congrArg ofLittleEndian (List.take_left' hfour)
    rw [hannounced] at hcode
    obtain ⟨code, rest, rfl, hlong⟩ :=
      FileReader.exists_eq_append_of_le (show ofLittleEndian length ≤ t.length by omega)
    have hfits := ofLittleEndian_lt length
    have hstored := littleEndian_ofLittleEndian length
    rw [hfour, ← hlong] at hfits hstored
    refine ⟨{ flags := ⟨bits⟩, code }, rest, run_parse_eq_ok_iff.mpr ?_⟩
    refine ⟨rfl, hfits, ignored, hsix, ?_⟩
    rw [hstored]

/-- Reading undoes writing and leaves what stands behind the file. The files that are read
are those that start with a header of the known version and as much code as it announces,
and writing what was read gives what was read, but for the reserved bytes. A file is
refused for its magic bytes if it has four bytes and these are others, for its version if
that is the first byte that is wrong, and otherwise for ending too early. -/
theorem parse_inverse_write :
    (∀ x : Executable, x.Fits → ∀ rest : Bytes, ∃ file, x.writeTo {} = (.ok (), file) ∧
      parse.run (file ++ rest) = .ok ({ x with version := 1 }, rest)) ∧
    ∀ data : Bytes,
      ((∃ y rest, parse.run data = .ok (y, rest)) ↔ StartsFile data) ∧
      (∀ y rest, parse.run data = .ok (y, rest) → y.toExecutable.writeTo {} =
        (.ok (), clearReserved (data.take (headerSize + announcedLength data)))) ∧
      (parse.run data = .error .badMagic ↔
        magic.length ≤ data.length ∧ data.take magic.length ≠ magic) ∧
      (∀ v, parse.run data = .error (.unsupportedVersion v) ↔
        data.take magic.length = magic ∧ data[4]? = some v ∧ v ≠ 1) ∧
      (parse.run data = .error .unexpectedEnd ↔ ¬StartsFile data ∧
        ¬(magic.length ≤ data.length ∧ data.take magic.length ≠ magic) ∧
        ¬∃ v, data.take magic.length = magic ∧ data[4]? = some v ∧ v ≠ 1) := by
  constructor
  · intro x hfits rest
    exact ⟨x.encode, writeTo_of_fits hfits, run_parse_encode_append hfits rest⟩
  · intro data
    refine ⟨exists_run_parse_eq_ok_iff, ?_, run_parse_eq_badMagic_iff,
      fun v => run_parse_eq_unsupportedVersion_iff, ?_⟩
    · intro y rest h
      obtain ⟨-, hfits, ignored, hsix, hdata⟩ := run_parse_eq_ok_iff.mp h
      obtain ⟨hlength, hfile⟩ := announcedLength_and_clearReserved hfits hsix hdata
      rw [hlength, hfile]
      exact writeTo_of_fits hfits
    · rw [← exists_run_parse_eq_ok_iff, ← run_parse_eq_badMagic_iff]
      have hversion : (∃ v, data.take magic.length = magic ∧ data[4]? = some v ∧ v ≠ 1) ↔
          ∃ v, parse.run data = .error (.unsupportedVersion v) :=
        exists_congr fun v => run_parse_eq_unsupportedVersion_iff.symm
      rw [hversion]
      cases h : parse.run data with
      | ok result =>
          obtain ⟨y, rest⟩ := result
          simp
      | error e => cases e <;> simp

theorem parse_inverse_write_of_unknown_flags :
    (⟨⟨0x84⟩, [0xFF]⟩ : Executable).Fits ∧
      (∃ file, writeTo ⟨⟨0x84⟩, [0xFF]⟩ {} = (.ok (), file) ∧
        parse.run (file ++ [0x12, 0x34]) =
          .ok ({ flags := ⟨0x84⟩, code := [0xFF], version := 1 }, [0x12, 0x34])) ∧
      parse.run [0x42, 0x45, 0x58, 0x45, 1, 0x84, 1, 0, 0, 0, 0, 0, 0x7E, 0, 0, 0, 0xFF, 0x12] =
        .ok ({ flags := ⟨0x84⟩, code := [0xFF], version := 1 }, [0x12]) ∧
      writeTo ⟨⟨0x84⟩, [0xFF]⟩ {} =
        (.ok (), [0x42, 0x45, 0x58, 0x45, 1, 0x84, 1, 0, 0, 0, 0, 0, 0, 0, 0, 0, 0xFF]) := by
  obtain ⟨hwritten, hread⟩ := parse_inverse_write
  have hdata : parse.run
      [0x42, 0x45, 0x58, 0x45, 1, 0x84, 1, 0, 0, 0, 0, 0, 0x7E, 0, 0, 0, 0xFF, 0x12] =
        .ok ({ flags := ⟨0x84⟩, code := [0xFF], version := 1 }, [0x12]) := rfl
  obtain ⟨-, hrewritten, -⟩ := hread
    [0x42, 0x45, 0x58, 0x45, 1, 0x84, 1, 0, 0, 0, 0, 0, 0x7E, 0, 0, 0, 0xFF, 0x12]
  exact ⟨by decide, hwritten ⟨⟨0x84⟩, [0xFF]⟩ (by decide) [0x12, 0x34], hdata,
    hrewritten _ _ hdata⟩

end Executable

end ConsoleScript
