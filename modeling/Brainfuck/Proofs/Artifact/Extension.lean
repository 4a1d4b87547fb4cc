import Brainfuck.Proofs.Artifact.RoundTrip

set_option autoImplicit false

/-! # Artifacts with bytes missing or added

Bytes are read from the front, and what has been read is not looked at again. So a verdict stands
whatever follows, unless it is that the bytes ended, and that one can always be changed
(`Reader.Outlook`). The readers of the payload are put together from single bytes, and each way to
put them together keeps this true (`Reader.Final`).

An artifact of which the end is missing is an instance: if the whole is read to its last byte, then
a part of it can neither be read nor refused for another reason, since that verdict would stand for
the whole too (`Reader.Final.endOfBytes_of_part`). The bytes in front of the payload are few, and
are looked at one case at a time. -/

namespace Brainfuck

/-! ## What more bytes can do -/

namespace Reader

variable {α β : Type}

/-- What more bytes can do to the verdict of a reader: nothing, unless the bytes ended too early. -/
inductive Outlook (r : Reader α) (bytes : List UInt8) : Prop
  | read (a : α) (rest : List UInt8) (h : ∀ more, r (bytes ++ more) = .ok (a, rest ++ more))
  | refused (e : PayloadError) (he : e ≠ .endOfBytes) (h : ∀ more, r (bytes ++ more) = .error e)
  | unfinished (more : List UInt8) (h : r bytes = .error .endOfBytes)
      (hmore : r (bytes ++ more) ≠ .error .endOfBytes)

/-- Only the end of the bytes is a verdict that more bytes can change. -/
def Final (r : Reader α) : Prop := ∀ bytes, Outlook r bytes

/-- With some more bytes the verdict is not that they ended. -/
theorem Outlook.exists_more {r : Reader α} {bytes : List UInt8} (h : Outlook r bytes) :
    ∃ more, r (bytes ++ more) ≠ .error .endOfBytes := by
  cases h with
  | read a rest h =>
      refine ⟨[], ?_⟩
      rw [h]
      exact nofun
  | refused e he h =>
      refine ⟨[], ?_⟩
      rw [h]
      exact fun heq => he (Except.error.inj heq)
  | unfinished more _ hmore => exact ⟨more, hmore⟩

theorem bind_of_ok {r : Reader α} {bytes rest : List UInt8} {a : α} (h : r bytes = .ok (a, rest))
    (f : α → Reader β) : (r >>= f) bytes = f a rest := by
  show (r bytes >>= fun x => f x.1 x.2) = _
  rw [h]
  rfl

theorem bind_of_error {r : Reader α} {bytes : List UInt8} {e : PayloadError}
    (h : r bytes = .error e) (f : α → Reader β) : (r >>= f) bytes = .error e := by
  show (r bytes >>= fun x => f x.1 x.2) = _
  rw [h]
  rfl

theorem final_pure (a : α) : Final (pure a) := fun bytes => .read a bytes fun _ => rfl

theorem final_throw {e : PayloadError} (he : e ≠ .endOfBytes) : Final (throw e : Reader α) :=
  fun _ => .refused e he fun _ => rfl

theorem final_byte : Final byte := by
  intro bytes
  rcases bytes with - | ⟨b, rest⟩
  · exact .unfinished [0] rfl nofun
  · exact .read b rest fun _ => rfl

theorem Final.ite {c : Prop} [Decidable c] {r s : Reader α} (hr : r.Final) (hs : s.Final) :
    Final (if c then r else s) := by
  by_cases hc : c
  · rw [if_pos hc]
    exact hr
  · rw [if_neg hc]
    exact hs

theorem Final.bind {r : Reader α} {f : α → Reader β} (hr : r.Final) (hf : ∀ a, (f a).Final) :
    (r >>= f).Final := by
  intro bytes
  cases hr bytes with
  | read a rest h =>
      have hbind : ∀ more, (r >>= f) (bytes ++ more) = f a (rest ++ more) :=
        fun more => bind_of_ok (h more) f
      cases hf a rest with
      | read b rest' h' => exact .read b rest' fun more => (hbind more).trans (h' more)
      | refused e he h' => exact .refused e he fun more => (hbind more).trans (h' more)
      | unfinished more h' hmore =>
          have hnow := hbind []
          rw [List.append_nil, List.append_nil] at hnow
          exact .unfinished more (hnow.trans h') (hbind more ▸ hmore)
  | refused e he h => exact .refused e he fun more => bind_of_error (h more) f
  | unfinished more h hmore =>
      have hnow := bind_of_error h f
      -- the first reader gets on, and the second may need still more
      cases hr (bytes ++ more) with
      | read a rest h' =>
          have hbind : ∀ more', (r >>= f) (bytes ++ more ++ more') = f a (rest ++ more') :=
            fun more' => bind_of_ok (h' more') f
          obtain ⟨more', hmore'⟩ := (hf a rest).exists_more
          rw [← hbind, List.append_assoc] at hmore'
          exact .unfinished (more ++ more') hnow hmore'
      | refused e he h' =>
          have hbind := bind_of_error (h' []) f
          rw [List.append_nil] at hbind
          refine .unfinished more hnow ?_
          rw [hbind]
          exact fun heq => he (Except.error.inj heq)
      | unfinished _ h' _ => exact absurd h' hmore

theorem Final.map {r : Reader α} (hr : r.Final) (f : α → β) : Final (do return f (← r)) :=
  hr.bind fun a => final_pure (f a)

/-- What is read to the last byte is not read without it. -/
theorem Final.endOfBytes_of_part {r : Reader α} (hr : r.Final) {bytes whole : List UInt8} {a : α}
    (hwhole : r whole = .ok (a, [])) (hpart : bytes <+: whole) (hne : bytes ≠ whole) :
    r bytes = .error .endOfBytes := by
  obtain ⟨missing, rfl⟩ := hpart
  cases hr bytes with
  | read b rest h =>
      have heq := Except.ok.inj ((h missing).symm.trans hwhole)
      have hnil := (List.append_eq_nil_iff.1 (congrArg Prod.snd heq)).2
      exact absurd (by rw [hnil, List.append_nil]) hne
  | refused e he h =>
      have heq := (h missing).symm.trans hwhole
      cases heq
  | unfinished more h hmore => exact h

end Reader

/-! ## The payload -/

namespace Payload

open Reader (Final)

theorem final_varint (lastMax k : Nat) : Final (Varint.decode lastMax k) := by
  induction k with
  | zero =>
      refine Reader.final_byte.bind fun b => ?_
      exact (Reader.final_pure _).ite (Reader.final_throw nofun)
  | succ k ih =>
      refine Reader.final_byte.bind fun b => ?_
      exact (Reader.final_pure _).ite (ih.map _)

theorem final_word : Final readWord := (final_varint _ _).map _

theorem final_offset : Final readOffset := (final_varint _ _).map _

theorem final_bool : Final Reader.bool := by
  refine Reader.final_byte.bind fun b => ?_
  split
  · exact Reader.final_pure false
  · exact Reader.final_pure true
  · exact Reader.final_throw nofun

theorem final_op : Final readOp := by
  refine (final_varint _ _).bind fun kind => ?_
  split
  · exact Reader.final_byte.map Op.addCell
  · exact Reader.final_byte.map Op.subCell
  · exact final_word.map Op.moveRight
  · exact final_word.map Op.moveLeft
  · exact Reader.final_pure Op.write
  · exact Reader.final_pure Op.read
  · exact final_offset.map Op.jump
  · exact final_offset.map Op.jumpIfZero
  · exact Reader.final_pure Op.halt
  · exact Reader.final_throw nofun

theorem final_ops (n : Nat) : ∀ before : Array Op, Final (readOps before n) := by
  induction n with
  | zero => exact Reader.final_pure
  | succ n ih => exact fun before => final_op.bind fun op => ih (before.push op)

theorem final_read : Final read :=
  final_word.bind fun _ => final_word.bind fun _ => final_bool.bind fun _ =>
    (final_varint _ _).bind fun count => (final_ops count #[]).map _

end Payload

/-! ## The bytes in front of the payload -/

namespace Artifact

/-- Bytes that neither begin with the mark nor are a part of it never come to begin with it. -/
theorem not_mark_append {mark bytes : List UInt8} (hmark : ¬ mark <+: bytes)
    (hshort : ¬ bytes <+: mark) (more : List UInt8) : ¬ mark <+: bytes ++ more := by
  intro hmore
  rcases List.prefix_or_prefix_of_prefix hmore (List.prefix_append bytes more) with h | h
  · exact hmark h
  · exact hshort h

theorem dropLauncher_of_not_marked {bytes : List UInt8} (h : ¬ launcherMark <+: bytes) :
    dropLauncher bytes = .ok bytes := by
  rw [dropLauncher, if_neg (mt List.isPrefixOf_iff_prefix.1 h)]

/-- A line that goes on to the end of the bytes. -/
theorem dropLauncher_of_unterminated {line : List UInt8} (h : newline ∉ line) :
    dropLauncher (launcherMark ++ line) = .error .unterminatedLauncher := by
  have hstart : launcherMark.isPrefixOf (launcherMark ++ line) = true := rfl
  have hend : (launcherMark ++ line).dropWhile (· != newline) = [] := by
    rw [← List.append_nil (launcherMark ++ line),
      List.dropWhile_append_of_pos (ne_newline_of_mem h)]
    rfl
  rw [dropLauncher, if_pos hstart, hend]

/-- The body begins behind the launcher, if there is one, and more bytes do not change where. -/
structure BodyAt (bytes body : List UInt8) : Prop where
  launcher : ∃ front, IsLauncher front ∧ bytes = front ++ body
  drop : ∀ more, dropLauncher (bytes ++ more) = .ok (body ++ more)

/-- All that can stand in front of the body. -/
theorem launcher_cases (bytes : List UInt8) :
    (bytes = [] ∨ bytes = [0x23]) ∨
    (∃ line, newline ∉ line ∧ bytes = launcherMark ++ line) ∨ ∃ body, BodyAt bytes body := by
  by_cases hmark : launcherMark <+: bytes
  · obtain ⟨text, rfl⟩ := hmark
    by_cases hend : newline ∈ text
    · obtain ⟨line, body, rfl, hline⟩ := List.eq_append_cons_of_mem hend
      refine .inr (.inr ⟨body, ⟨_, .inr ⟨line, hline, rfl⟩, by simp⟩, ?_⟩)
      intro more
      rw [← List.append_assoc, List.append_assoc _ _ more, List.cons_append]
      exact dropLauncher_line hline (body ++ more)
    · exact .inr (.inl ⟨text, hend, rfl⟩)
  · by_cases hshort : bytes <+: launcherMark
    · -- a part of the mark that is not all of it
      rcases bytes with - | ⟨a, - | ⟨b, rest⟩⟩
      · exact .inl (.inl rfl)
      · rw [launcherMark, List.cons_prefix_cons] at hshort
        exact .inl (.inr (congrArg (fun c => [c]) hshort.1))
      · have heq := hshort.eq_of_length_le (by simp [launcherMark])
        exact absurd (heq ▸ List.prefix_rfl) hmark
    · refine .inr (.inr ⟨bytes, ⟨[], .inl rfl, rfl⟩, ?_⟩)
      intro more
      exact dropLauncher_of_not_marked (not_mark_append hmark hshort more)

/-- All that a body can begin with. -/
theorem magic_cases (body : List UInt8) :
    body <+: magic ∨
    (¬ body <+: magic ∧ ∀ more, dropMagic (body ++ more) = .error .missingMagic) ∨
    ∃ v payload, body = magic ++ v :: payload := by
  by_cases hcut : body <+: magic
  · exact .inl hcut
  · by_cases hmagic : magic <+: body
    · obtain ⟨rest, rfl⟩ := hmagic
      rcases rest with - | ⟨v, payload⟩
      · rw [List.append_nil] at hcut
        exact absurd List.prefix_rfl hcut
      · exact .inr (.inr ⟨v, payload, rfl⟩)
    · refine .inr (.inl ⟨hcut, ?_⟩)
      intro more
      have hmore := not_mark_append hmagic hcut more
      rw [dropMagic, if_neg (mt List.isPrefixOf_iff_prefix.1 hmore)]

theorem dropMagic_of_cut {body : List UInt8} (hcut : body <+: magic) (hne : body ≠ magic) :
    dropMagic body = .error .missingMagic := by
  have hmagic : ¬ magic <+: body := by
    intro hmagic
    exact hne (hcut.eq_of_length_le hmagic.length_le)
  rw [dropMagic, if_neg (mt List.isPrefixOf_iff_prefix.1 hmagic)]

/-! ### From the header to the verdict -/

section
variable {bytes body payload : List UInt8} {v : UInt8}

theorem decode_of_launcher_error {e : FormatError} (h : dropLauncher bytes = .error e) :
    decode bytes = .error e := by
  simp only [decode, h, bind, Except.bind]

theorem decode_of_magic_error {e : FormatError} (hbody : dropLauncher bytes = .ok body)
    (h : dropMagic body = .error e) : decode bytes = .error e := by
  simp only [decode, hbody, h, bind, Except.bind]

theorem decode_of_version_ne (hbody : dropLauncher bytes = .ok (magic ++ v :: payload))
    (hv : v ≠ version) : decode bytes = .error (.unsupportedVersion v) := by
  simp only [decode, hbody, dropMagic_append, bind, Except.bind, if_pos hv]
  rfl

theorem decode_of_read_error {cause : PayloadError}
    (hbody : dropLauncher bytes = .ok (magic ++ version :: payload))
    (hread : Payload.read payload = .error cause) : decode bytes = .error (.corrupt cause) := by
  simp only [decode, hbody, dropMagic_append, bind, Except.bind, hread]
  rfl

end

/-! ## Bytes added -/

/-- The header is cut short: the first byte of a launcher, or a launcher and a part of the mark. -/
def HeaderCut (bytes : List UInt8) : Prop :=
  bytes = [0x23] ∨
  ∃ front body, IsLauncher front ∧ bytes = front ++ body ∧ body <+: magic ∧ body ≠ magic

/-- The verdict is on the bytes that are there: a program, or an error in them. -/
def Settled (bytes : List UInt8) : Prop :=
  (∃ p, decode bytes = .ok p) ∨ (∃ v, decode bytes = .error (.unsupportedVersion v)) ∨
  (∃ cause, cause ≠ .endOfBytes ∧ decode bytes = .error (.corrupt cause)) ∨
  (decode bytes = .error .missingMagic ∧ ¬ HeaderCut bytes)

/-- The verdict is that bytes are missing. -/
def CutShort (bytes : List UInt8) : Prop :=
  decode bytes = .error .unterminatedLauncher ∨ decode bytes = .error .missingVersion ∨
  decode bytes = .error (.corrupt .endOfBytes) ∨
  (decode bytes = .error .missingMagic ∧ HeaderCut bytes)

/-- More bytes do not change the verdict. -/
def Lasting (bytes : List UInt8) : Prop := ∀ more, decode (bytes ++ more) = decode bytes

theorem CutShort.not_settled {bytes : List UInt8} (h : CutShort bytes) : ¬ Settled bytes := by
  rintro (⟨p, hs⟩ | ⟨v, hs⟩ | ⟨cause, hcause, hs⟩ | ⟨hs, hheader⟩) <;>
    rcases h with h | h | h | ⟨h, hcut⟩ <;> have heq := h.symm.trans hs <;> cases heq
  · exact hcause rfl
  · exact hheader hcut

section
variable {bytes : List UInt8} {verdict other : Except FormatError Program}

theorem lasting_of_forall (h : ∀ more, decode (bytes ++ more) = verdict) :
    decode bytes = verdict ∧ Lasting bytes := by
  have hnow := h []
  rw [List.append_nil] at hnow
  exact ⟨hnow, fun more => (h more).trans hnow.symm⟩

theorem not_lasting_of_ne {more : List UInt8} (h : decode bytes = verdict)
    (hmore : decode (bytes ++ more) = other) (hne : other ≠ verdict) : ¬ Lasting bytes := by
  intro hlasting
  exact hne (hmore.symm.trans ((hlasting more).trans h))

end

/-- A body in which the mark is cut short is behind whatever launcher is in front of it. -/
theorem dropLauncher_of_cut {front body : List UInt8} (hfront : IsLauncher front)
    (hcut : body <+: magic) : dropLauncher (front ++ body) = .ok body := by
  rcases hfront with rfl | ⟨line, hline, rfl⟩
  · apply dropLauncher_of_not_marked
    intro hmark
    exact absurd (hmark.trans hcut) (by decide)
  · rw [List.append_assoc _ [newline], List.singleton_append]
    exact dropLauncher_line hline body

namespace BodyAt

variable {bytes body : List UInt8}

theorem dropLauncher_eq (h : BodyAt bytes body) : dropLauncher bytes = .ok body := by
  have hnow := h.drop []
  rwa [List.append_nil, List.append_nil] at hnow

theorem headerCut_iff (h : BodyAt bytes body) :
    HeaderCut bytes ↔ body <+: magic ∧ body ≠ magic := by
  constructor
  · rintro (rfl | ⟨front, cut, hfront, rfl, hcut, hne⟩)
    · -- one more byte makes it a launcher without an end
      have hmore := h.drop [0x21]
      cases hmore
    · obtain rfl := Except.ok.inj (h.dropLauncher_eq.symm.trans (dropLauncher_of_cut hfront hcut))
      exact ⟨hcut, hne⟩
  · rintro ⟨hcut, hne⟩
    obtain ⟨front, hfront, heq⟩ := h.launcher
    exact .inr ⟨front, body, hfront, heq, hcut, hne⟩

/-- A mark that is cut short can still become complete. -/
theorem outlook_of_cut (h : BodyAt bytes body) (hcut : body <+: magic) :
    CutShort bytes ∧ ¬ Lasting bytes := by
  by_cases hne : body = magic
  · subst hne
    have hnow := decode_of_magic_error h.dropLauncher_eq rfl
    have hmore : decode (bytes ++ [0]) = .error (.unsupportedVersion 0) :=
      decode_of_version_ne (h.drop [0]) (by decide)
    exact ⟨.inr (.inl hnow), not_lasting_of_ne hnow hmore nofun⟩
  · have hnow := decode_of_magic_error h.dropLauncher_eq (dropMagic_of_cut hcut hne)
    obtain ⟨missing, hmissing⟩ := hcut
    have hmore : decode (bytes ++ missing) = .error .missingVersion := by
      apply decode_of_magic_error (h.drop missing)
      rw [hmissing]
      rfl
    refine ⟨.inr (.inr (.inr ⟨hnow, ?_⟩)), not_lasting_of_ne hnow hmore nofun⟩
    exact h.headerCut_iff.2 ⟨⟨missing, hmissing⟩, hne⟩

theorem outlook_of_mismatch (h : BodyAt bytes body) (hcut : ¬ body <+: magic)
    (hmagic : ∀ more, dropMagic (body ++ more) = .error .missingMagic) :
    Settled bytes ∧ Lasting bytes := by
  obtain ⟨hnow, hlasting⟩ :=
    lasting_of_forall fun more => decode_of_magic_error (h.drop more) (hmagic more)
  refine ⟨.inr (.inr (.inr ⟨hnow, ?_⟩)), hlasting⟩
  rw [h.headerCut_iff]
  exact fun hheader => hcut hheader.1

theorem outlook_of_version_ne {v : UInt8} {payload : List UInt8}
    (h : BodyAt bytes (magic ++ v :: payload)) (hv : v ≠ version) :
    Settled bytes ∧ Lasting bytes := by
  obtain ⟨hnow, hlasting⟩ := lasting_of_forall fun more => decode_of_version_ne (h.drop more) hv
  exact ⟨.inr (.inl ⟨v, hnow⟩), hlasting⟩

/-- Behind the header, the payload decides. -/
theorem outlook_of_payload {payload : List UInt8}
    (h : BodyAt bytes (magic ++ version :: payload)) :
    (Settled bytes ∧ Lasting bytes) ∨ (CutShort bytes ∧ ¬ Lasting bytes) := by
  cases Payload.final_read payload with
  | read p rest hread =>
      obtain ⟨hnow, hlasting⟩ :=
        lasting_of_forall fun more => decode_of_read_ok (h.drop more) (hread more)
      exact .inl ⟨.inl ⟨p, hnow⟩, hlasting⟩
  | refused cause hcause hread =>
      obtain ⟨hnow, hlasting⟩ :=
        lasting_of_forall fun more => decode_of_read_error (h.drop more) (hread more)
      exact .inl ⟨.inr (.inr (.inl ⟨cause, hcause, hnow⟩)), hlasting⟩
  | unfinished more hread hmore =>
      have hnow := decode_of_read_error h.dropLauncher_eq hread
      refine .inr ⟨.inr (.inr (.inl hnow)), ?_⟩
      rcases hlater : Payload.read (payload ++ more) with cause | ⟨p, rest⟩
      · refine not_lasting_of_ne hnow (decode_of_read_error (h.drop more) hlater) ?_
        intro heq
        cases heq
        exact hmore hlater
      · exact not_lasting_of_ne hnow (decode_of_read_ok (h.drop more) hlater) nofun

end BodyAt

/-- Either the verdict is on the bytes that are there, and stands, or bytes are missing, and some
    make a difference. -/
theorem outlook (bytes : List UInt8) :
    (Settled bytes ∧ Lasting bytes) ∨ (CutShort bytes ∧ ¬ Lasting bytes) := by
  rcases launcher_cases bytes with (rfl | rfl) | ⟨line, hline, rfl⟩ | ⟨body, hbody⟩
  · have hmore : decode ([] ++ launcherMark) = .error .unterminatedLauncher := rfl
    refine .inr ⟨.inr (.inr (.inr ⟨rfl, ?_⟩)), not_lasting_of_ne rfl hmore nofun⟩
    exact .inr ⟨[], [], .inl rfl, rfl, List.nil_prefix, nofun⟩
  · have hmore : decode ([0x23] ++ [0x21]) = .error .unterminatedLauncher := rfl
    exact .inr ⟨.inr (.inr (.inr ⟨rfl, .inl rfl⟩)), not_lasting_of_ne rfl hmore nofun⟩
  · have hnow := decode_of_launcher_error (dropLauncher_of_unterminated hline)
    have hmore : decode (launcherMark ++ line ++ [newline]) = .error .missingMagic :=
      decode_of_magic_error (dropLauncher_line hline []) rfl
    exact .inr ⟨.inl hnow, not_lasting_of_ne hnow hmore nofun⟩
  · rcases magic_cases body with hcut | ⟨hcut, hmagic⟩ | ⟨v, payload, rfl⟩
    · exact .inr (hbody.outlook_of_cut hcut)
    · exact .inl (hbody.outlook_of_mismatch hcut hmagic)
    · by_cases hv : v = version
      · subst hv
        exact hbody.outlook_of_payload
      · exact .inl (hbody.outlook_of_version_ne hv)

/-- A verdict on the bytes that are there stands whatever follows, and no other does: what more
    bytes can change are a launcher line without an end, a header that is cut short, and the end of
    the bytes inside the payload. -/
theorem decode_append_eq_iff (bytes : List UInt8) :
    ((∀ more, decode (bytes ++ more) = decode bytes) ↔ Settled bytes) ∧
    (¬ Settled bytes ↔ CutShort bytes) := by
  rcases outlook bytes with ⟨hsettled, hlasting⟩ | ⟨hcut, hlasting⟩
  · refine ⟨iff_of_true hlasting hsettled, iff_of_false (not_not_intro hsettled) ?_⟩
    exact fun hcut => hcut.not_settled hsettled
  · exact ⟨iff_of_false hlasting hcut.not_settled, iff_of_true hcut.not_settled hcut⟩

/-! ## Bytes missing -/

/-- The bytes are refused with this error, which is shown as this text. -/
def Refused (bytes : List UInt8) (e : FormatError) (text : String) : Prop :=
  decode bytes = .error e ∧ e.message = text

/-- Of a launcher line, what is there up to the newline is known by its first two bytes. -/
theorem decode_of_cut_line {line bytes : List UInt8} (hline : newline ∉ line)
    (hpart : bytes <+: launcherMark ++ line) (hlength : 2 ≤ bytes.length) :
    decode bytes = .error .unterminatedLauncher := by
  obtain ⟨text, rfl⟩ := List.prefix_of_prefix_length_le (List.prefix_append _ line) hpart hlength
  have htext : text <+: line := (List.prefix_append_right_inj _).1 hpart
  exact decode_of_launcher_error
    (dropLauncher_of_unterminated fun hmem => hline (htext.subset hmem))

theorem decode_of_cut_launcher {bytes : List UInt8} (hpart : bytes <+: launcher)
    (hlength : bytes.length < launcher.length) :
    decode bytes = .error (if bytes.length < 2 then .missingMagic else .unterminatedLauncher) := by
  rcases isLauncher_launcher with hnil | ⟨line, hline, hlauncher⟩
  · exact absurd hnil (by decide)
  · rw [hlauncher] at hpart hlength
    have hpart' : bytes <+: launcherMark ++ line := by
      refine List.prefix_of_prefix_length_le hpart (List.prefix_append _ [newline]) ?_
      rw [List.length_append, List.length_singleton] at hlength
      omega
    by_cases hshort : bytes.length < 2
    · rw [if_pos hshort]
      rcases bytes with - | ⟨a, - | ⟨b, rest⟩⟩
      · rfl
      · obtain ⟨rfl, -⟩ := List.cons_prefix_cons.1 hpart'
        rfl
      · exact absurd hshort (by simp)
    · rw [if_neg hshort]
      exact decode_of_cut_line hline hpart' (by omega)

/-- The payload of an artifact is not read without its last byte. -/
theorem decode_of_cut_payload {p : Program} (hops : p.ops.size < UInt64.size)
    {bytes payload : List UInt8} (hbody : dropLauncher bytes = .ok (magic ++ version :: payload))
    (hpart : payload <+: Payload.write p) (hne : payload ≠ Payload.write p) :
    decode bytes = .error (.corrupt .endOfBytes) := by
  have hwhole := Payload.reads_program hops []
  rw [List.append_nil] at hwhole
  exact decode_of_read_error hbody (Payload.final_read.endOfBytes_of_part hwhole hpart hne)

/-- What is there of an artifact, if it goes on behind the launcher line. -/
theorem exists_body_of_part {p : Program} {bytes : List UInt8} (hpart : bytes <+: encode p)
    (hne : bytes ≠ encode p) (hlength : launcher.length ≤ bytes.length) :
    ∃ body, bytes = launcher ++ body ∧ dropLauncher bytes = .ok body ∧
      body <+: magic ++ version :: Payload.write p ∧
      body ≠ magic ++ version :: Payload.write p := by
  rw [encode_eq_launcher_append] at hpart hne
  obtain ⟨body, rfl⟩ := List.prefix_of_prefix_length_le (List.prefix_append _ _) hpart hlength
  refine ⟨body, rfl, rfl, (List.prefix_append_right_inj _).1 hpart, ?_⟩
  rintro rfl
  exact hne rfl

/-- An artifact of which the end is missing is refused, and the error says where it ends: before the
    mark of a launcher is complete, inside the launcher line, inside the mark, right behind it, or
    later. (As in the round trip, the number of instructions has to be a word.) -/
theorem decode_truncated {p : Program} (hops : p.ops.size < UInt64.size) {bytes : List UInt8}
    (hpart : bytes <+: encode p) (hne : bytes ≠ encode p) :
    (bytes.length < 2 →
      Refused bytes .missingMagic "not a bytecode artifact: missing BFBC magic") ∧
    (2 ≤ bytes.length → bytes.length < launcher.length →
      Refused bytes .unterminatedLauncher
        "not a bytecode artifact: unterminated launcher line") ∧
    (launcher.length ≤ bytes.length → bytes.length < launcher.length + magic.length →
      Refused bytes .missingMagic "not a bytecode artifact: missing BFBC magic") ∧
    (bytes.length = launcher.length + magic.length →
      Refused bytes .missingVersion "not a bytecode artifact: missing format version") ∧
    (launcher.length + magic.length < bytes.length →
      Refused bytes (.corrupt .endOfBytes)
        "corrupt artifact: Hit the end of buffer, expected more data") := by
  have hinside : bytes.length < launcher.length → bytes <+: launcher := by
    intro hlength
    rw [encode, List.append_assoc] at hpart
    exact List.prefix_of_prefix_length_le hpart (List.prefix_append _ _) (Nat.le_of_lt hlength)
  refine ⟨?_, ?_, ?_, ?_, ?_⟩
  · intro hshort
    have hlength : bytes.length < launcher.length := Nat.lt_trans hshort (by decide)
    have hdecode := decode_of_cut_launcher (hinside hlength) hlength
    rw [if_pos hshort] at hdecode
    exact ⟨hdecode, rfl⟩
  · intro hmark hlength
    have hdecode := decode_of_cut_launcher (hinside hlength) hlength
    rw [if_neg (by omega)] at hdecode
    exact ⟨hdecode, rfl⟩
  · intro hlauncher hlength
    obtain ⟨body, rfl, hdrop, hbody, -⟩ := exists_body_of_part hpart hne hlauncher
    rw [List.length_append] at hlength
    have hcut : body <+: magic :=
      List.prefix_of_prefix_length_le hbody (List.prefix_append _ _) (by omega)
    refine ⟨decode_of_magic_error hdrop (dropMagic_of_cut hcut ?_), rfl⟩
    rintro rfl
    omega
  · intro hlength
    obtain ⟨body, rfl, hdrop, hbody, -⟩ := exists_body_of_part hpart hne (by omega)
    rw [List.length_append] at hlength
    have hcut : body <+: magic :=
      List.prefix_of_prefix_length_le hbody (List.prefix_append _ _) (by omega)
    obtain rfl := hcut.eq_of_length (by omega)
    exact ⟨decode_of_magic_error hdrop rfl, rfl⟩
  · intro hlength
    obtain ⟨body, rfl, hdrop, hbody, hproper⟩ := exists_body_of_part hpart hne (by omega)
    rw [List.length_append] at hlength
    obtain ⟨rest, rfl⟩ :=
      List.prefix_of_prefix_length_le (List.prefix_append magic _) hbody (by omega)
    -- the version is there, so that what is missing is missing in the payload
    rcases rest with - | ⟨v, payload⟩
    · rw [List.append_nil] at hlength
      omega
    · obtain ⟨rfl, hpayload⟩ :=
        List.cons_prefix_cons.1 ((List.prefix_append_right_inj _).1 hbody)
      refine ⟨decode_of_cut_payload hops hdrop hpayload ?_, rfl⟩
      rintro rfl
      exact hproper rfl

/-- A move by 300 takes two bytes for its argument. Here the first of them is the last byte. -/
theorem decode_truncated_number :
    launcher ++ magic ++ [1, 3, 0, 1, 2, 2, 0xac] ++ [0x02, 8]
      = encode ⟨3, 0, true, #[.moveRight 300, .halt]⟩ ∧
    Refused (launcher ++ magic ++ [1, 3, 0, 1, 2, 2, 0xac]) (.corrupt .endOfBytes)
      "corrupt artifact: Hit the end of buffer, expected more data" := by
  have hsize : (#[.moveRight 300, .halt] : Array Op).size < UInt64.size := by decide
  have hwhole : launcher ++ magic ++ [1, 3, 0, 1, 2, 2, 0xac] ++ [0x02, 8]
      = encode ⟨3, 0, true, #[.moveRight 300, .halt]⟩ := rfl
  have hcut := decode_truncated hsize ⟨_, hwhole⟩ (by decide)
  exact ⟨hwhole, hcut.2.2.2.2 (by decide)⟩

end Artifact

end Brainfuck
