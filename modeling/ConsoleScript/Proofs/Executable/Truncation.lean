import ConsoleScript.Proofs.Executable.Codec

/-!
# Executables that are cut short

A sink with limited room takes the front of an executable, and the write fails as soon as a part
does not fit. No such front is taken for an executable: a reader of files knows from the bytes
that it has taken how many are to come, so it refuses a shorter text for ending too early,
wherever the cut is.
-/

namespace ConsoleScript

open Bytes

/-! ### Limited room -/

namespace Sink

variable {part written : Bytes} {room : Nat} {parts : List Bytes}

theorem write_of_le (h : part.length ≤ room) :
    Sink.write part ⟨written, some room⟩ = .ok () ⟨written ++ part, some (room - part.length)⟩ := by
  simp only [write, if_pos h, List.take_of_length_le h]

/-- A part that does not fit fills the room. -/
theorem write_of_lt (h : room < part.length) :
    Sink.write part ⟨written, some room⟩ =
      .error .noRoom ⟨written ++ part.take room, some 0⟩ := by
  simp only [write, if_neg (Nat.not_le.mpr h), Nat.sub_eq_zero_of_le (Nat.le_of_lt h)]

theorem forM_write_cons_of_le (h : part.length ≤ room) :
    (part :: parts).forM Sink.write ⟨written, some room⟩ =
      parts.forM Sink.write ⟨written ++ part, some (room - part.length)⟩ := by
  rw [List.forM_eq_forM, List.forM_cons]
  show EStateM.bind _ _ _ = _
  rw [EStateM.bind, write_of_le h]

/-- Nothing is written behind a part that does not fit. -/
theorem forM_write_cons_of_lt (h : room < part.length) :
    (part :: parts).forM Sink.write ⟨written, some room⟩ =
      .error .noRoom ⟨written ++ part.take room, some 0⟩ := by
  rw [List.forM_eq_forM, List.forM_cons]
  show EStateM.bind _ _ _ = _
  rw [EStateM.bind, write_of_lt h]

/-- Parts that fit together are written in full. -/
theorem forM_write_of_le (h : parts.flatten.length ≤ room) :
    parts.forM Sink.write ⟨written, some room⟩ =
      .ok () ⟨written ++ parts.flatten, some (room - parts.flatten.length)⟩ := by
  induction parts generalizing written room with
  | nil => simp [pure, EStateM.pure]
  | cons part parts ih =>
      rw [List.flatten_cons, List.length_append] at h ⊢
      rw [forM_write_cons_of_le (by omega), ih (by omega), List.append_assoc, Nat.sub_sub]

/-- Of parts that do not fit together, the bytes at the front are written for which there is
room, whichever part they end in. -/
theorem forM_write_of_lt (h : room < parts.flatten.length) :
    parts.forM Sink.write ⟨written, some room⟩ =
      .error .noRoom ⟨written ++ parts.flatten.take room, some 0⟩ := by
  induction parts generalizing written room with
  | nil => exact absurd h (Nat.not_lt_zero room)
  | cons part parts ih =>
      rw [List.flatten_cons, List.take_append]
      rcases Nat.lt_or_ge room part.length with hlt | hle
      · rw [forM_write_cons_of_lt hlt, Nat.sub_eq_zero_of_le (Nat.le_of_lt hlt), List.take_zero,
          List.append_nil]
      · rw [List.flatten_cons, List.length_append] at h
        rw [forM_write_cons_of_le hle, List.take_of_length_le hle, ← List.append_assoc]
        exact ih (by omega)

end Sink

/-! ### Cut files -/

namespace FileReader

variable {α β : Type} {r : FileReader α} {f : α → FileReader β} {a : α} {b : β}
  {front back : Bytes}

/-- The reader takes exactly this front and gives `a` for it: what stands behind the front is
left, and less than the front is refused for ending too early. -/
structure Takes (r : FileReader α) (front : Bytes) (a : α) : Prop where
  run_append (rest : Bytes) : r.run (front ++ rest) = .ok (a, rest)
  run_cut {cut missing : Bytes} (h : front = cut ++ missing) (hne : missing ≠ []) :
    r.run cut = .error .unexpectedEnd

theorem takes_pure (a : α) : Takes (pure a) [] a where
  run_append _ := rfl
  run_cut h hne := absurd (List.append_eq_nil_iff.mp h.symm).2 hne

theorem takes_take (front : Bytes) : Takes (take front.length) front front where
  run_append _ := run_take_eq_ok_iff.mpr ⟨rfl, rfl⟩
  run_cut h hne := by
    apply run_take_of_lt
    rw [h, List.length_append]
    exact Nat.lt_add_of_pos_right (List.length_pos_iff.mpr hne)

theorem takes_next (b : UInt8) : Takes next [b] b where
  run_append _ := rfl
  run_cut h hne := by
    obtain ⟨rfl, -⟩ | ⟨-, rfl⟩ := List.append_eq_singleton_iff.mp h.symm
    · rfl
    · exact absurd rfl hne

theorem run_bind_of_ok {s t : Bytes} (h : r.run s = .ok (a, t)) :
    (r >>= f).run s = (f a).run t := by
  rw [StateT.run_bind, h]
  rfl

theorem run_bind_of_error {s : Bytes} {e : ParseError} (h : r.run s = .error e) :
    (r >>= f).run s = .error e := by
  rw [StateT.run_bind, h]
  rfl

theorem Takes.bind (hr : Takes r front a) (hf : Takes (f a) back b) :
    Takes (r >>= f) (front ++ back) b where
  run_append rest := by
    rw [List.append_assoc, run_bind_of_ok (hr.run_append _)]
    exact hf.run_append rest
  run_cut {cut missing} h hne := by
    rcases List.append_eq_append_iff.mp h with ⟨middle, rfl, hback⟩ | ⟨middle, hfront, hmissing⟩
    · -- the cut is behind the first front
      rw [run_bind_of_ok (hr.run_append middle)]
      exact hf.run_cut hback hne
    · by_cases hmiddle : middle = []
      · rw [hmiddle, List.append_nil] at hfront
        rw [hmiddle, List.nil_append] at hmissing
        rw [← hfront, ← List.append_nil front, run_bind_of_ok (hr.run_append [])]
        exact hf.run_cut hmissing.symm hne
      · exact run_bind_of_error (hr.run_cut hfront hmiddle)

end FileReader

namespace Executable

open FileReader

variable {x : Executable} {y : Parsed}

theorem takes_parseMagic : Takes parseMagic magic () := by
  have hmagic : Takes (unless magic = magic do throw .badMagic) [] () := by
    rw [if_pos rfl]
    exact takes_pure ()
  exact (takes_take magic).bind hmagic

theorem takes_parseVersion : Takes parseVersion [formatVersion] () := by
  have hversion :
      Takes (unless formatVersion = formatVersion do throw (.unsupportedVersion formatVersion))
        [] () := by
    rw [if_pos rfl]
    exact takes_pure ()
  exact (takes_next formatVersion).bind hversion

/-- Behind the version, the fields of the header and the code section are taken. -/
theorem takes_parseContent (hversion : y.version = formatVersion) (hfits : y.Fits)
    {ignored : Bytes} (hignored : ignored.length = reserved.length) :
    Takes parseContent
      ([y.flags.bits] ++ (littleEndian 4 y.code.length ++ (ignored ++ (y.code ++ [])))) y := by
  have hlength : ofLittleEndian (littleEndian 4 y.code.length) = y.code.length := by
    rw [ofLittleEndian_littleEndian]
    exact Nat.mod_eq_of_lt hfits
  have hfour : Takes (take 4) (littleEndian 4 y.code.length) (littleEndian 4 y.code.length) := by
    have h := takes_take (littleEndian 4 y.code.length)
    rwa [length_littleEndian] at h
  have hsix : Takes (take reserved.length) ignored ignored := hignored ▸ takes_take ignored
  have hcode : Takes (take (ofLittleEndian (littleEndian 4 y.code.length))) y.code y.code := by
    rw [hlength]
    exact takes_take y.code
  obtain ⟨x, version⟩ := y
  obtain rfl : version = formatVersion := hversion
  exact (takes_next _).bind (hfour.bind (hsix.bind (hcode.bind (takes_pure _))))

/-- What is read from the front of a file is taken byte by byte, whatever the reserved bytes
are: nothing behind it is needed, and no byte of it is missed. -/
theorem takes_parse (hversion : y.version = formatVersion) (hfits : y.Fits) {ignored : Bytes}
    (hignored : ignored.length = reserved.length) :
    Takes parse (magic ++ ([formatVersion] ++
      ([y.flags.bits] ++ (littleEndian 4 y.code.length ++ (ignored ++ (y.code ++ [])))))) y :=
  takes_parseMagic.bind (takes_parseVersion.bind (takes_parseContent hversion hfits hignored))

theorem takes_parse_encode (h : x.Fits) :
    Takes parse x.encode { x with version := formatVersion } := by
  have hencode : x.encode = magic ++ ([formatVersion] ++ ([x.flags.bits] ++
      (littleEndian 4 x.code.length ++ (reserved ++ (x.code ++ []))))) := by
    simp [encode, header]
  rw [hencode]
  exact takes_parse (y := { x with version := formatVersion }) rfl h rfl

/-! ### Torn writes -/

/-- The parts of the file in the order in which they are written. -/
def parts (x : Executable) : List Bytes :=
  [magic, [formatVersion], [x.flags.bits], littleEndian 4 x.code.length, reserved, x.code]

theorem flatten_parts (x : Executable) : x.parts.flatten = x.encode := by
  simp [parts, encode, header]

theorem length_encode (x : Executable) : x.encode.length = headerSize + x.code.length := by
  rw [encode, List.length_append, length_header]

theorem write_of_fits (h : x.Fits) : x.write = x.parts.forM Sink.write := by
  unfold write
  rw [if_pos h]
  simp [parts]

theorem writeTo_of_room {room : Nat} (hfits : x.Fits) (h : x.encode.length ≤ room) :
    x.writeTo { room := some room } = (.ok (), x.encode) := by
  rw [← flatten_parts] at h ⊢
  rw [writeTo, write_of_fits hfits, Sink.forM_write_of_le h]
  rfl

theorem writeTo_of_noRoom {room : Nat} (hfits : x.Fits) (h : room < x.encode.length) :
    x.writeTo { room := some room } = (.error .noRoom, x.encode.take room) := by
  rw [← flatten_parts] at h ⊢
  rw [writeTo, write_of_fits hfits, Sink.forM_write_of_lt h]
  rfl

/-- An executable that is written to limited room leaves the front of its file for which there
is room. The write succeeds exactly if that is the whole file, and fails for want of room
otherwise. What a failed write has left is never taken for an executable, and never for a file of
another kind or version: it is refused for ending too early. -/
theorem torn_write_is_refused (hfits : x.Fits) (room : Nat) :
    ∃ file, x.writeTo {} = (.ok (), file) ∧ file.length = headerSize + x.code.length ∧
      (x.writeTo { room := some room }).2 = file.take (min room (headerSize + x.code.length)) ∧
      ((x.writeTo { room := some room }).1 = .ok () ↔ headerSize + x.code.length ≤ room) ∧
      ((x.writeTo { room := some room }).1 = .error .noRoom ↔
        room < headerSize + x.code.length) ∧
      ∀ e, (x.writeTo { room := some room }).1 = .error e →
        parse.run (x.writeTo { room := some room }).2 = .error .unexpectedEnd := by
  refine ⟨x.encode, writeTo_of_fits hfits, length_encode x, ?_⟩
  rw [← length_encode]
  rcases Nat.lt_or_ge room x.encode.length with hlt | hle
  · have hwritten := writeTo_of_noRoom hfits hlt
    have hmissing : x.encode.drop room ≠ [] := fun h =>
      absurd (List.drop_eq_nil_iff.mp h) (Nat.not_le.mpr hlt)
    have hcut : parse.run (x.encode.take room) = .error .unexpectedEnd :=
      (takes_parse_encode hfits).run_cut (List.take_append_drop room x.encode).symm hmissing
    rw [hwritten, Nat.min_eq_left (Nat.le_of_lt hlt)]
    exact ⟨rfl, by simpa using hlt, by simpa using hlt, fun _ _ => hcut⟩
  · have hwritten := writeTo_of_room hfits hle
    rw [hwritten, Nat.min_eq_right hle, List.take_length]
    exact ⟨rfl, by simpa using hle, by simpa using hle, fun e h => by cases h⟩

/-- A cut inside the field that holds the length, of which one byte of four is written. -/
theorem torn_write_is_refused_of_cut_length :
    (⟨⟨0x84⟩, [0x30, 0xFF]⟩ : Executable).Fits ∧
      writeTo ⟨⟨0x84⟩, [0x30, 0xFF]⟩ { room := some 7 } =
        (.error .noRoom, [0x42, 0x45, 0x58, 0x45, 1, 0x84, 2]) ∧
      parse.run [0x42, 0x45, 0x58, 0x45, 1, 0x84, 2] = .error .unexpectedEnd := by
  have hfits : (⟨⟨0x84⟩, [0x30, 0xFF]⟩ : Executable).Fits := by decide
  have hwritten : writeTo ⟨⟨0x84⟩, [0x30, 0xFF]⟩ { room := some 7 } =
      (.error .noRoom, [0x42, 0x45, 0x58, 0x45, 1, 0x84, 2]) := rfl
  obtain ⟨file, -, -, -, -, -, hrefused⟩ := torn_write_is_refused hfits 7
  rw [hwritten] at hrefused
  exact ⟨hfits, hwritten, hrefused _ rfl⟩

end Executable

end ConsoleScript
