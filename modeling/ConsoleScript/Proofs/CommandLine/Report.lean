import ConsoleScript.CommandLine.Build
import ConsoleScript.Proofs.Text.Separation

/-!
# What a printed report shows

The last line that is printed of a report names the output, the length of the code and the flags,
and what stands in front of it is the listing. So a printed report shows all that the report holds,
although neither the output nor the listing is quoted: the line is read from its end.
-/

namespace ConsoleScript

namespace Text

/-- A byte has two hexadecimal digits. -/
theorem toList_hex_two (hexCase : HexCase) {n : Nat} (h : n < 256) :
    (hex hexCase 2 n).toList = [hexDigit hexCase (n / 16), hexDigit hexCase (n % 16)] := by
  rw [hex, String.toList_ofList, hexDigits]
  by_cases hlow : n < 16
  · rw [if_pos hlow, Nat.div_eq_of_lt hlow, Nat.mod_eq_of_lt hlow]
    rfl
  · have hhigh : n / 16 < 16 := by omega
    rw [if_neg hlow, hexDigits, if_pos hhigh]
    rfl

theorem hexDigit_inj {hexCase : HexCase} :
    ∀ m < 16, ∀ n < 16, hexDigit hexCase m = hexDigit hexCase n → m = n := by
  cases hexCase <;> decide

theorem hex_two_inj {hexCase : HexCase} {m n : Nat} (hm : m < 256) (hn : n < 256)
    (h : (hex hexCase 2 m).toList = (hex hexCase 2 n).toList) : m = n := by
  rw [toList_hex_two hexCase hm, toList_hex_two hexCase hn] at h
  obtain ⟨hhigh, htail⟩ := List.cons.inj h
  obtain ⟨hlow, -⟩ := List.cons.inj htail
  have hquotient := hexDigit_inj _ (by omega) _ (by omega) hhigh
  have hremainder := hexDigit_inj _ (by omega) _ (by omega) hlow
  omega

end Text

namespace BuildReport

/-- The line on the file that was written. -/
def summary (r : BuildReport) : String :=
  "Wrote " ++ r.output ++ " (code bytes: " ++ r.codeLength.repr ++ ") flags=0x" ++
    Text.hex .upper 2 r.flags.bits.toNat

variable {r r' : BuildReport}

theorem lines_eq (r : BuildReport) : r.lines = r.dump?.toList ++ [r.summary] := rfl

/-- No digit stands in front of the length. -/
theorem isNumeral_of_mem_getLast? (output : List Char) :
    ∀ c ∈ ("Wrote ".toList ++ output ++ " (code bytes: ".toList).getLast?,
      Text.isNumeral c = false := by
  have hblank : " (code bytes: ".toList.getLast? = some ' ' := by decide
  rw [List.getLast?_append, hblank]
  intro c hc
  obtain rfl : ' ' = c := Option.some.inj hc
  rfl

/-- The last line shows the output, the length of the code and the flags. -/
theorem summary_inj (h : r.summary = r'.summary) :
    r.output = r'.output ∧ r.codeLength = r'.codeLength ∧ r.flags = r'.flags := by
  have hlist := congrArg String.toList h
  simp only [summary, String.toList_append] at hlist
  obtain ⟨hbody, hhex⟩ := List.append_inj' hlist (by
    rw [Text.toList_hex_two _ (UInt8.toNat_lt _), Text.toList_hex_two _ (UInt8.toNat_lt _)]
    rfl)
  obtain ⟨hfront, hdigits⟩ := Text.append_run_inj (fun c => Text.isNumeral_of_mem_repr)
    (fun c => Text.isNumeral_of_mem_repr) (isNumeral_of_mem_getLast? r.output.toList)
    (isNumeral_of_mem_getLast? r'.output.toList) (List.append_cancel_right hbody)
  have houtput := List.append_cancel_left (List.append_cancel_right hfront)
  have hbits := Text.hex_two_inj (UInt8.toNat_lt _) (UInt8.toNat_lt _) hhex
  refine ⟨String.toList_inj.mp houtput, Nat.repr_inj.mp (String.toList_inj.mp hdigits), ?_⟩
  exact congrArg Flags.mk (UInt8.toNat_inj.mp hbits)

theorem eq_of_summary_eq (h : r.summary = r'.summary) (hdump : r.dump? = r'.dump?) : r = r' := by
  obtain ⟨houtput, hlength, hflags⟩ := summary_inj h
  cases r
  cases r'
  congr

/-- The lines show all that a report holds. -/
theorem lines_inj : r.lines = r'.lines ↔ r = r' := by
  constructor
  · intro h
    rw [lines_eq, lines_eq] at h
    obtain ⟨hdump, hsummary⟩ := List.append_inj' h rfl
    have hhead := congrArg List.head? hdump
    rw [Option.head?_toList, Option.head?_toList] at hhead
    exact eq_of_summary_eq (List.cons.inj hsummary).1 hhead
  · rintro rfl
    rfl

example : (⟨"a.cbexe", 7, ⟨2⟩, none⟩ : BuildReport).lines =
    ["Wrote a.cbexe (code bytes: 7) flags=0x02"] := by
  have hflags : Text.hex .upper 2 (2 : UInt8).toNat = "02" :=
    String.toList_inj.mp (Text.toList_hex_two _ (by decide))
  rw [lines_eq, summary, hflags]
  decide

/-! ### The printed text -/

/-- The listing as it is printed in front of the last line. -/
def listing (r : BuildReport) : List Char :=
  r.dump?.toList.flatMap fun s => s.toList ++ ['\n']

theorem toList_text (r : BuildReport) :
    r.text.toList = r.listing ++ r.summary.toList ++ ['\n'] := by
  simp [text, lines_eq, listing, String.toList_join, String.toList_append, List.flatMap_map]

theorem newline_notMem_summary (h : '\n' ∉ r.output.toList) : '\n' ∉ r.summary.toList := by
  have hlength : '\n' ∉ r.codeLength.repr.toList := by
    intro hmem
    exact absurd (Text.isNumeral_of_mem_repr hmem) (by decide)
  simpa [summary, String.toList_append, h, Text.newline_notMem_hex] using hlength

theorem ne_newline_of_mem_summary (h : '\n' ∉ r.output.toList) :
    ∀ c ∈ r.summary.toList, (c != '\n') = true := by
  intro c hc
  rw [bne_iff_ne]
  rintro rfl
  exact newline_notMem_summary h hc

/-- The last line stands on a line of its own. -/
theorem getLast?_listing (r : BuildReport) : ∀ c ∈ r.listing.getLast?, (c != '\n') = false := by
  intro c hc
  cases hdump : r.dump? with
  | none => simp [listing, hdump] at hc
  | some s =>
      obtain rfl : '\n' = c := by simpa [listing, hdump] using hc
      rfl

theorem listing_inj (h : r.listing = r'.listing) : r.dump? = r'.dump? := by
  rw [listing, listing] at h
  cases hdump : r.dump? with
  | none =>
      cases hdump' : r'.dump? with
      | none => rfl
      | some s' => simp [hdump, hdump'] at h
  | some s =>
      cases hdump' : r'.dump? with
      | none => simp [hdump, hdump'] at h
      | some s' => simpa [hdump, hdump', String.toList_inj] using h

/-- The printed text shows all that a report holds, if the output's name breaks no line. -/
theorem text_inj (h : '\n' ∉ r.output.toList) (h' : '\n' ∉ r'.output.toList) :
    r.text = r'.text ↔ r = r' := by
  constructor
  · intro heq
    have hlist := congrArg String.toList heq
    rw [toList_text, toList_text] at hlist
    obtain ⟨hlisting, hsummary⟩ := Text.append_run_inj (ne_newline_of_mem_summary h)
      (ne_newline_of_mem_summary h') (getLast?_listing r) (getLast?_listing r')
      (List.append_cancel_right hlist)
    exact eq_of_summary_eq (String.toList_inj.mp hsummary) (listing_inj hlisting)
  · rintro rfl
    rfl

end BuildReport

end ConsoleScript
