import ExtensionAudit.Proofs.LineEndings
import ExtensionAudit.Proofs.Scan.Account
import ExtensionAudit.Proofs.Utf8.Lossy

/-!
# What is read of a file

The findings and the URLs of a file are those of its text. Neither bytes that cannot be decoded nor the way in which its
lines end make a difference.

* `Scanner.fileResult_of_readable`: what comes of a file that can be read;
* `Utf8.HidesNothing`, **`Scanner.hidesNothing_fileResult`**: bytes that cannot be decoded hide no text;
* **`Scanner.fileResult_of_lineEndings`**: the line endings of a text do not matter.
-/

namespace ExtensionAudit

/-- **A way to read bytes that hides no text** behind what it drops. -/
structure Utf8.HidesNothing (decode : Bytes → Text) : Prop where
  ascii : ∀ b : UInt8, b.toNat < 0x80 → ∀ x y, decode (x ++ b :: y) = decode x ++ charOf b :: decode y
  foreign : ∀ b, Foreign b → ∀ x y, decode (x ++ b :: y) = decode x ++ decode y
  encoded : ∀ t : Text, t.isEncodable = true → ∀ y, decode (encodeAll t ++ y) = t ++ decode y
  /-- Every ASCII byte survives, in order. -/
  survive : ∀ bytes, (decode bytes).filter isAsciiChar = (bytes.filter isAsciiByte).map charOf
  /-- UTF-8 is read exactly. -/
  exact : ∀ t : Text, t.isEncodable = true → decode (encodeAll t) = t

theorem Utf8.hidesNothing_decodeLossy : HidesNothing decodeLossy where
  ascii _ hb := decodeLossy_append_ascii hb
  foreign _ hb := decodeLossy_append_foreign hb
  encoded _ ht := decodeLossy_encodeAll_append ht
  survive := filter_decodeLossy
  exact t ht := by
    have h := decodeLossy_encodeAll_append ht []
    rwa [List.append_nil, show decodeLossy [] = [] from rfl, List.append_nil] at h

theorem decoded_encodeAll {t t' : Text} (hr : Text.carriageReturn ∉ t) (ht : t.isEncodable = true)
    (h : Text.LineEndings t t') : decoded (Utf8.encodeAll t') = t := by
  rw [decoded, Utf8.hidesNothing_decodeLossy.exact t' (h.isEncodable ht), h.unifyNewlines_eq hr]

variable {fs : FileSystem} {cwd : Location} {p : Path} {bytes : Bytes}

theorem FileSystem.content_of_readable {limit : ℤ} (hp : fs.readable? cwd limit p = some bytes) :
    fs.content cwd limit p = .ok (decoded bytes) := by
  have h := fs.toOption_content cwd limit p
  rw [hp] at h
  cases hc : fs.content cwd limit p with
  | error e =>
    rw [hc] at h
    cases h
  | ok content =>
    rw [hc] at h
    exact congrArg Except.ok (Option.some.inj h)

namespace Scanner

variable {s : Scanner}

/-- **What comes of a file that can be read.** -/
theorem fileResult_of_readable (hp : fs.readable? cwd s.maxFileSize p = some bytes) :
    s.fileResult fs cwd p = .ok (s.resultOf p bytes) := by
  rw [fileResult, FileSystem.content_of_readable hp]
  rfl

/-! ## Bytes that cannot be decoded -/

/-- **Bytes that cannot be decoded hide no text**: the text of a file is read in a way that hides nothing, and foreign
bytes put in beside ASCII bytes change neither the findings nor the URLs of a file. -/
theorem hidesNothing_fileResult :
    (∀ b, Utf8.Foreign b ↔ b = 0xC0 ∨ b = 0xC1 ∨ 0xF5 ≤ b) ∧
    Utf8.HidesNothing Utf8.decodeLossy ∧
    (∀ (fs : FileSystem) (cwd : Location) (limit : ℤ) (p : Path) (bytes : Bytes),
      fs.readable? cwd limit p = some bytes →
        fs.content cwd limit p = .ok (Text.unifyNewlines (Utf8.decodeLossy bytes))) ∧
    ∀ (s : Scanner) (fs fs' : FileSystem) (cwd cwd' : Location) (p p' : Path) (bytes bytes' : Bytes),
      Utf8.Laced bytes bytes' → fs.readable? cwd s.maxFileSize p = some bytes →
      fs'.readable? cwd' s.maxFileSize p' = some bytes' →
        ∃ findings urls, s.fileResult fs cwd p = .ok ⟨p, findings, urls⟩ ∧
          s.fileResult fs' cwd' p' = .ok ⟨p', findings, urls⟩ := by
  refine ⟨fun _ => Utf8.foreign_iff, Utf8.hidesNothing_decodeLossy,
    fun _ _ _ _ _ hp => FileSystem.content_of_readable hp, ?_⟩
  intro s fs fs' cwd cwd' p p' bytes bytes' hlaced hp hp'
  refine ⟨_, _, fileResult_of_readable hp, ?_⟩
  have htext : decoded bytes' = decoded bytes := congrArg Text.unifyNewlines hlaced.decodeLossy_eq
  rw [fileResult_of_readable hp', resultOf, htext]

/-- A file with a call, and with bytes that stand in no UTF-8 within its name, within its argument and behind it. -/
def lacedWorld : World :=
  { hastyWorld with
    files := FileSystem.empty.plantAll [] [⟨[.literal "lace"],
      .file true [0x65, 0xFF, 0x78, 0x65, 0x63, 0x28, 0x72, 0xC0, 0x6D, 0x29, 0xF8]⟩] }

set_option maxRecDepth 20000 in
theorem readable?_lacedWorld : lacedWorld.files.readable? lacedWorld.cwd hasty.maxFileSize (text "/lace") =
    some [0x65, 0xFF, 0x78, 0x65, 0x63, 0x28, 0x72, 0xC0, 0x6D, 0x29, 0xF8] := by cbv

set_option maxRecDepth 20000 in
theorem hidesNothing_fileResult_lacedWorld : ∃ urls,
    hasty.fileResult lacedWorld.files lacedWorld.cwd (text "/lace") =
      .ok ⟨text "/lace", [⟨[], 1, text "rm", execKind⟩], urls⟩ := by
  have hplain : hastyWorld.files.readable? hastyWorld.cwd hasty.maxFileSize (text "/tool/main") =
      some [0x65, 0x78, 0x65, 0x63, 0x28, 0x72, 0x6D, 0x29] := by cbv
  have hlaced : Utf8.Laced [0x65, 0x78, 0x65, 0x63, 0x28, 0x72, 0x6D, 0x29]
      [0x65, 0xFF, 0x78, 0x65, 0x63, 0x28, 0x72, 0xC0, 0x6D, 0x29, 0xF8] := by
    refine @Utf8.Laced.insert _ [0x65, 0xFF, 0x78, 0x65, 0x63, 0x28, 0x72, 0xC0, 0x6D, 0x29] [] _ ?_
      (Utf8.foreign_iff.mpr (by decide)) (Or.inl (by decide))
    refine @Utf8.Laced.insert _ [0x65, 0xFF, 0x78, 0x65, 0x63, 0x28, 0x72] [0x6D, 0x29] _ ?_
      (Utf8.foreign_iff.mpr (by decide)) (Or.inl (by decide))
    exact @Utf8.Laced.insert _ [0x65] [0x78, 0x65, 0x63, 0x28, 0x72, 0x6D, 0x29] _ .refl
      (Utf8.foreign_iff.mpr (by decide)) (Or.inl (by decide))
  obtain ⟨findings, urls, h, h'⟩ := hidesNothing_fileResult.2.2.2 hasty hastyWorld.files lacedWorld.files
    hastyWorld.cwd lacedWorld.cwd _ _ _ _ hlaced hplain readable?_lacedWorld
  rw [fileResult_of_readable hplain] at h
  -- the file without those bytes holds the call
  obtain rfl : Detect.execFindings hasty.denylist (decoded [0x65, 0x78, 0x65, 0x63, 0x28, 0x72, 0x6D, 0x29])
      = findings :=
    congrArg FileResult.findings (Except.ok.inj h)
  refine ⟨urls, h'.trans ?_⟩
  rw [show Detect.execFindings hasty.denylist (decoded [0x65, 0x78, 0x65, 0x63, 0x28, 0x72, 0x6D, 0x29]) =
    [⟨[], 1, text "rm", execKind⟩] by cbv]

/-! ## Line endings -/

/-- **The line endings of a text do not matter**: with all of them the findings and the URLs of a file are those of the
text. -/
theorem fileResult_of_lineEndings {t t' : Text} (hr : Text.carriageReturn ∉ t) (ht : t.isEncodable = true)
    (h : Text.LineEndings t t') (hp : fs.readable? cwd s.maxFileSize p = some (Utf8.encodeAll t')) :
    s.fileResult fs cwd p =
      .ok { path := p, findings := Detect.execFindings s.denylist t, urls := Detect.urls t } := by
  rw [fileResult_of_readable hp, resultOf, decoded_encodeAll hr ht h]

/-- Two lines, of which the first one ends in a carriage return with a line feed. -/
def returnWorld : World :=
  { hastyWorld with
    files := FileSystem.empty.plantAll [] [⟨[.literal "page"],
      .file true (Utf8.encodeAll (text "rm\r\nexec(rm)\n"))⟩] }

set_option maxRecDepth 20000 in
theorem fileResult_of_lineEndings_returnWorld :
    hasty.fileResult returnWorld.files returnWorld.cwd (text "/page") =
      .ok { path := text "/page", findings := [⟨[], 2, text "rm", execKind⟩],
            urls := Detect.urls (text "rm\nexec(rm)\n") } := by
  have hends : Text.ReturnFeeds (text "rm\nexec(rm)\n") (text "rm\r\nexec(rm)\n") :=
    .cons _ (.cons _ (.feed (.refl _)))
  have hp : returnWorld.files.readable? returnWorld.cwd hasty.maxFileSize (text "/page") =
      some (Utf8.encodeAll (text "rm\r\nexec(rm)\n")) := by cbv
  have hfindings : Detect.execFindings hasty.denylist (text "rm\nexec(rm)\n") = [⟨[], 2, text "rm", execKind⟩] := by
    cbv
  rw [fileResult_of_lineEndings (by decide) (by decide) (.returnFeeds hends) hp, hfindings]

end Scanner

end ExtensionAudit
