import Brainfuck.Proofs.Artifact.Extension

set_option autoImplicit false

/-! # The shortest artifact of a program

A program has many forms in which it is read: numbers may be written with more bytes than they need,
and any bytes may follow. The form that is written is the shortest of them, and no other is as
short. This is shown value by value. What a reader takes off the front is either what would be
written for the value, or longer (`Spelling`), and values that follow each other keep this true, so
that over the instructions of a program the surplus of each one adds up. -/

namespace Brainfuck

/-! ## Forms of a value -/

/-- The bytes in front of `rest` are the ones that are `written`, or they are more. -/
def Spelling (written bytes rest : List UInt8) : Prop :=
  ∃ taken, bytes = taken ++ rest ∧ (taken = written ∨ written.length < taken.length)

namespace Spelling

variable {written written' bytes middle rest : List UInt8}

theorem exact (written rest : List UInt8) : Spelling written (written ++ rest) rest :=
  ⟨written, rfl, .inl rfl⟩

theorem append (h : Spelling written bytes middle) (h' : Spelling written' middle rest) :
    Spelling (written ++ written') bytes rest := by
  obtain ⟨taken, rfl, htaken⟩ := h
  obtain ⟨taken', rfl, htaken'⟩ := h'
  refine ⟨taken ++ taken', by rw [List.append_assoc], ?_⟩
  simp only [List.length_append]
  rcases htaken with rfl | hlong <;> rcases htaken' with rfl | hlong'
  · exact .inl rfl
  all_goals right; omega

theorem length_le (h : Spelling written bytes rest) :
    written.length + rest.length ≤ bytes.length := by
  obtain ⟨taken, rfl, rfl | hlong⟩ := h
  · exact Nat.le_of_eq List.length_append.symm
  · rw [List.length_append]
    omega

/-- No form is shorter, and only what is written is as short, with nothing behind it. -/
theorem eq_of_length_eq (h : Spelling written bytes rest)
    (hlength : written.length = bytes.length) : written = bytes := by
  have hle := h.length_le
  obtain ⟨taken, rfl, rfl | hlong⟩ := h
  · have hnil : rest = [] := List.eq_nil_of_length_eq_zero (by omega)
    rw [hnil, List.append_nil]
  · rw [List.length_append] at hlength
    omega

end Spelling

/-! ## What has been read -/

namespace Reader

variable {α β : Type}

/-- What two readers give one after the other, they give one by one. -/
theorem of_bind_ok {r : Reader α} {f : α → Reader β} {bytes rest : List UInt8} {b : β}
    (h : (r >>= f) bytes = .ok (b, rest)) :
    ∃ a middle, r bytes = .ok (a, middle) ∧ f a middle = .ok (b, rest) := by
  rcases hr : r bytes with e | ⟨a, middle⟩
  · rw [bind_of_error hr] at h
    contradiction
  · rw [bind_of_ok hr] at h
    exact ⟨a, middle, rfl, h⟩

theorem of_pure_ok {a b : α} {bytes rest : List UInt8}
    (h : (pure a : Reader α) bytes = .ok (b, rest)) : a = b ∧ bytes = rest :=
  Prod.mk.inj (Except.ok.inj h)

theorem of_map_ok {r : Reader α} {f : α → β} {bytes rest : List UInt8} {b : β}
    (h : (do return f (← r) : Reader β) bytes = .ok (b, rest)) :
    ∃ a, r bytes = .ok (a, rest) ∧ f a = b := by
  obtain ⟨a, middle, hr, hpure⟩ := of_bind_ok h
  obtain ⟨rfl, rfl⟩ := of_pure_ok hpure
  exact ⟨a, hr, rfl⟩

theorem of_byte_ok {bytes rest : List UInt8} {b : UInt8} (h : byte bytes = .ok (b, rest)) :
    bytes = b :: rest := by
  rcases bytes with - | ⟨b', rest'⟩
  · contradiction
  · obtain ⟨rfl, rfl⟩ := Prod.mk.inj (Except.ok.inj h)
    rfl

end Reader

/-! ## Numbers -/

namespace Varint

variable {lastMax k n : Nat} {bytes rest : List UInt8}

theorem of_decode_zero_ok (h : decode lastMax 0 bytes = .ok (n, rest)) :
    ∃ b : UInt8, bytes = b :: rest ∧ b.toNat ≤ lastMax ∧ n = b.toNat := by
  obtain ⟨b, tail, hbyte, hvalue⟩ := Reader.of_bind_ok h
  by_cases hb : b.toNat ≤ lastMax
  · rw [if_pos hb] at hvalue
    obtain ⟨rfl, rfl⟩ := Reader.of_pure_ok hvalue
    exact ⟨b, Reader.of_byte_ok hbyte, hb, rfl⟩
  · rw [if_neg hb] at hvalue
    contradiction

/-- A byte is the last one, or it is followed by the higher part of the number. -/
theorem of_decode_succ_ok (h : decode lastMax (k + 1) bytes = .ok (n, rest)) :
    ∃ (b : UInt8) (tail : List UInt8), bytes = b :: tail ∧
      ((b.toNat < 128 ∧ n = b.toNat ∧ tail = rest) ∨
       (128 ≤ b.toNat ∧
        ∃ m, decode lastMax k tail = .ok (m, rest) ∧ n = b.toNat - 128 + 128 * m)) := by
  obtain ⟨b, tail, hbyte, hvalue⟩ := Reader.of_bind_ok h
  refine ⟨b, tail, Reader.of_byte_ok hbyte, ?_⟩
  by_cases hb : b.toNat < 128
  · rw [if_pos hb] at hvalue
    obtain ⟨rfl, rfl⟩ := Reader.of_pure_ok hvalue
    exact .inl ⟨hb, rfl, rfl⟩
  · rw [if_neg hb] at hvalue
    obtain ⟨m, hm, hn⟩ := Reader.of_map_ok hvalue
    exact .inr ⟨by omega, m, hm, hn.symm⟩

theorem bound_pos (lastMax k : Nat) : 0 < bound lastMax k := by
  induction k with
  | zero => exact Nat.succ_pos lastMax
  | succ k ih =>
      rw [bound]
      omega

/-- No number that is read is too large for the width. -/
theorem lt_bound_of_decode (h : decode lastMax k bytes = .ok (n, rest)) : n < bound lastMax k := by
  induction k generalizing bytes n with
  | zero =>
      obtain ⟨b, -, hb, rfl⟩ := of_decode_zero_ok h
      exact Nat.lt_succ_of_le hb
  | succ k ih =>
      obtain ⟨b, tail, -, ⟨hb, rfl, -⟩ | ⟨-, m, hm, rfl⟩⟩ := of_decode_succ_ok h
      · have hpos := bound_pos lastMax k
        rw [bound]
        omega
      · have hlt := ih hm
        have hb := b.toNat_lt
        rw [bound]
        omega

theorem length_encode_pos (k n : Nat) : 0 < (encode k n).length := by
  cases k with
  | zero => simp [encode]
  | succ k =>
      rw [encode]
      split <;> simp

/-- A number is written with the fewest bytes: the bytes of a longer form have a highest part that
    is zero. -/
theorem spelling_of_decode (h : decode lastMax k bytes = .ok (n, rest)) :
    Spelling (encode k n) bytes rest := by
  induction k generalizing bytes n with
  | zero =>
      obtain ⟨b, rfl, -, rfl⟩ := of_decode_zero_ok h
      rw [encode, UInt8.ofNat_toNat]
      exact .exact [b] rest
  | succ k ih =>
      obtain ⟨b, tail, rfl, ⟨hb, rfl, rfl⟩ | ⟨hb, m, hm, rfl⟩⟩ := of_decode_succ_ok h
      · rw [encode, if_pos hb, UInt8.ofNat_toNat]
        exact .exact [b] tail
      · have hspelling := ih hm
        have hlt := b.toNat_lt
        rcases Nat.eq_zero_or_pos m with rfl | hpos
        · -- the byte goes on although nothing is left, so that one byte would do
          obtain ⟨taken, rfl, htaken⟩ := hspelling
          have htaken_pos : 0 < taken.length := by
            have hwritten := length_encode_pos k 0
            rcases htaken with rfl | hlong
            · exact hwritten
            · omega
          refine ⟨b :: taken, rfl, .inr ?_⟩
          rw [encode, if_pos (by omega)]
          simpa using htaken_pos
        · have hlow : (b.toNat - 128 + 128 * m) % 128 + 128 = b.toNat := by omega
          have hhigh : (b.toNat - 128 + 128 * m) / 128 = m := by omega
          rw [encode, if_neg (by omega), hlow, hhigh, UInt8.ofNat_toNat]
          exact (Spelling.exact [b] tail).append hspelling

/-- Where a number ends is known from its bytes, whatever its size. -/
theorem eq_of_encode_append {k n m : Nat} {rest rest' : List UInt8}
    (h : encode k n ++ rest = encode k m ++ rest') : rest = rest' := by
  induction k generalizing n m with
  | zero =>
      simp only [encode, List.cons_append, List.nil_append, List.cons.injEq] at h
      exact h.2
  | succ k ih =>
      -- the high bit of the first byte says whether the number goes on
      have hmixed : ∀ {a b : Nat}, a < 128 → UInt8.ofNat a ≠ UInt8.ofNat (b % 128 + 128) := by
        intro a b ha heq
        have htoNat := congrArg UInt8.toNat heq
        rw [toNat_ofNat_of_lt (by omega), toNat_ofNat_of_lt (by omega)] at htoNat
        omega
      by_cases hn : n < 128 <;> by_cases hm : m < 128 <;>
        simp only [encode, hn, hm, if_true, if_false, List.cons_append, List.nil_append,
          List.cons.injEq] at h
      · exact h.2
      · exact absurd h.1 (hmixed hn)
      · exact absurd h.1.symm (hmixed hm)
      · exact ih h.2

end Varint

/-! ## Instructions and programs -/

namespace Payload

variable {bytes rest : List UInt8}

theorem spelling_word {n : UInt64} (h : readWord bytes = .ok (n, rest)) :
    Spelling (writeWord n) bytes rest := by
  obtain ⟨m, hm, rfl⟩ := Reader.of_map_ok h
  have hsmall : m < UInt64.size := Varint.bound_word64 ▸ Varint.lt_bound_of_decode hm
  rw [writeWord, UInt64.toNat_ofNat_of_lt' hsmall]
  exact Varint.spelling_of_decode hm

theorem spelling_offset {n : Int32} (h : readOffset bytes = .ok (n, rest)) :
    Spelling (writeOffset n) bytes rest := by
  obtain ⟨m, hm, rfl⟩ := Reader.of_map_ok h
  have hsmall : m < UInt32.size := Varint.bound_word32 ▸ Varint.lt_bound_of_decode hm
  -- taking the folding back halves the number
  have hrange : -2 ^ 31 ≤ Zigzag.unfold m ∧ Zigzag.unfold m < 2 ^ 31 := by
    rw [UInt32.size] at hsmall
    unfold Zigzag.unfold
    split <;> omega
  rw [writeOffset, Int32.toInt_ofInt_of_le hrange.1 hrange.2, Zigzag.fold_unfold]
  exact Varint.spelling_of_decode hm

theorem spelling_byte {b : UInt8} (h : Reader.byte bytes = .ok (b, rest)) :
    Spelling [b] bytes rest := by
  rw [Reader.of_byte_ok h]
  exact .exact [b] rest

theorem spelling_bool {b : Bool} (h : Reader.bool bytes = .ok (b, rest)) :
    Spelling (writeBool b) bytes rest := by
  obtain ⟨byte, middle, hbyte, hvalue⟩ := Reader.of_bind_ok h
  have hspelling := spelling_byte hbyte
  split at hvalue
  · obtain ⟨rfl, rfl⟩ := Reader.of_pure_ok hvalue
    exact hspelling
  · obtain ⟨rfl, rfl⟩ := Reader.of_pure_ok hvalue
    exact hspelling
  · contradiction

theorem spelling_op {op : Op} (h : readOp bytes = .ok (op, rest)) :
    Spelling (writeOp op) bytes rest := by
  obtain ⟨kind, middle, hkind, hargument⟩ := Reader.of_bind_ok h
  -- the kind decides which instruction it is, so that the argument is what is left to look at
  suffices hop : variant op = kind ∧ Spelling (writeArgument op) middle rest by
    rw [writeOp, hop.1]
    exact (Varint.spelling_of_decode hkind).append hop.2
  split at hargument
  · obtain ⟨n, hn, rfl⟩ := Reader.of_map_ok hargument
    exact ⟨rfl, spelling_byte hn⟩
  · obtain ⟨n, hn, rfl⟩ := Reader.of_map_ok hargument
    exact ⟨rfl, spelling_byte hn⟩
  · obtain ⟨n, hn, rfl⟩ := Reader.of_map_ok hargument
    exact ⟨rfl, spelling_word hn⟩
  · obtain ⟨n, hn, rfl⟩ := Reader.of_map_ok hargument
    exact ⟨rfl, spelling_word hn⟩
  · obtain ⟨rfl, rfl⟩ := Reader.of_pure_ok hargument
    exact ⟨rfl, .exact [] middle⟩
  · obtain ⟨rfl, rfl⟩ := Reader.of_pure_ok hargument
    exact ⟨rfl, .exact [] middle⟩
  · obtain ⟨n, hn, rfl⟩ := Reader.of_map_ok hargument
    exact ⟨rfl, spelling_offset hn⟩
  · obtain ⟨n, hn, rfl⟩ := Reader.of_map_ok hargument
    exact ⟨rfl, spelling_offset hn⟩
  · obtain ⟨rfl, rfl⟩ := Reader.of_pure_ok hargument
    exact ⟨rfl, .exact [] middle⟩
  · contradiction

/-- As many instructions are read as the bytes declare, each in one of its forms. -/
theorem spelling_ops {n : Nat} {before ops : Array Op}
    (h : readOps before n bytes = .ok (ops, rest)) :
    ∃ new : List Op, new.length = n ∧ ops = before ++ new.toArray ∧
      Spelling (new.flatMap writeOp) bytes rest := by
  induction n generalizing before bytes with
  | zero =>
      obtain ⟨rfl, rfl⟩ := Reader.of_pure_ok h
      exact ⟨[], rfl, by simp, .exact [] bytes⟩
  | succ n ih =>
      obtain ⟨op, middle, hop, hops⟩ := Reader.of_bind_ok h
      obtain ⟨new, rfl, rfl, hnew⟩ := ih hops
      refine ⟨op :: new, rfl, by simp, ?_⟩
      rw [List.flatMap_cons]
      exact (spelling_op hop).append hnew

theorem spelling_program {p : Program} (h : read bytes = .ok (p, rest)) :
    p.ops.size < UInt64.size ∧ Spelling (write p) bytes rest := by
  obtain ⟨memorySize, bytes₁, hmemory, h⟩ := Reader.of_bind_ok h
  obtain ⟨pointerStart, bytes₂, hpointer, h⟩ := Reader.of_bind_ok h
  obtain ⟨boundsCheck, bytes₃, hcheck, h⟩ := Reader.of_bind_ok h
  obtain ⟨count, bytes₄, hcount, h⟩ := Reader.of_bind_ok h
  obtain ⟨ops, hops, rfl⟩ := Reader.of_map_ok h
  obtain ⟨new, rfl, rfl, hnew⟩ := spelling_ops hops
  have hsize : (#[] ++ new.toArray).size = new.length := by simp
  have hlist : (#[] ++ new.toArray).toList = new := by simp
  have hcount_lt : new.length < UInt64.size :=
    Varint.bound_word64 ▸ Varint.lt_bound_of_decode hcount
  refine ⟨hsize ▸ hcount_lt, ?_⟩
  rw [write, hsize, hlist]
  exact ((((spelling_word hmemory).append (spelling_word hpointer)).append
    (spelling_bool hcheck)).append (Varint.spelling_of_decode hcount)).append hnew

/-! ### No two programs are written alike -/

theorem length_writeOp_pos (op : Op) : 0 < (writeOp op).length := by
  have hkind := Varint.length_encode_pos Varint.word32.continuing (variant op)
  rw [writeOp, List.length_append]
  exact Nat.lt_of_lt_of_le hkind (Nat.le_add_right _ _)

theorem length_le_length_flatMap_writeOp (ops : List Op) :
    ops.length ≤ (ops.flatMap writeOp).length := by
  induction ops with
  | nil => exact Nat.le_refl 0
  | cons op ops ih =>
      have hpos := length_writeOp_pos op
      rw [List.flatMap_cons, List.length_append, List.length_cons]
      omega

theorem size_le_length_write (p : Program) : p.ops.size ≤ (write p).length := by
  have hops := length_le_length_flatMap_writeOp p.ops.toList
  rw [Array.length_toList] at hops
  rw [write, List.length_append]
  omega

open Reader (Reads) in
theorem eq_of_reads_append {α : Type} {r : Reader α} {a a' : α} {form form' rest' : List UInt8}
    (h : Reads r form a) (h' : Reads r form' a') (heq : form ++ rest = form' ++ rest') :
    a = a' ∧ rest = rest' := by
  have hread := h rest
  rw [heq, h' rest'] at hread
  obtain ⟨rfl, rfl⟩ := Prod.mk.inj (Except.ok.inj hread)
  exact ⟨rfl, rfl⟩

theorem flatMap_writeOp_injective : Function.Injective (List.flatMap writeOp) := by
  intro ops ops' h
  induction ops generalizing ops' with
  | nil =>
      have hlength := length_le_length_flatMap_writeOp ops'
      rw [← h] at hlength
      exact (List.eq_nil_of_length_eq_zero (Nat.le_zero.1 hlength)).symm
  | cons op ops ih =>
      rcases ops' with - | ⟨op', ops'⟩
      · have hlength := length_le_length_flatMap_writeOp (op :: ops)
        rw [h] at hlength
        contradiction
      · rw [List.flatMap_cons, List.flatMap_cons] at h
        obtain ⟨rfl, hrest⟩ := eq_of_reads_append (reads_op op) (reads_op op') h
        rw [ih hrest]

/-- This holds whatever the number of instructions, since where its bytes end is always known. -/
theorem write_injective : Function.Injective write := by
  intro p q h
  simp only [write, List.append_assoc] at h
  obtain ⟨hmemory, h⟩ := eq_of_reads_append (reads_word _) (reads_word _) h
  obtain ⟨hpointer, h⟩ := eq_of_reads_append (reads_word _) (reads_word _) h
  obtain ⟨hcheck, h⟩ := eq_of_reads_append (reads_bool _) (reads_bool _) h
  have hops := flatMap_writeOp_injective (Varint.eq_of_encode_append h)
  exact Program.ext hmemory hpointer hcheck (Array.toList_inj.1 hops)

end Payload

/-! ## Artifacts -/

namespace Artifact

/-- What stands in an artifact that is accepted. -/
theorem of_decode_ok {bytes : List UInt8} {p : Program} (h : decode bytes = .ok p) :
    ∃ front payload rest, IsLauncher front ∧ bytes = front ++ (magic ++ version :: payload) ∧
      dropLauncher bytes = .ok (magic ++ version :: payload) ∧
      Payload.read payload = .ok (p, rest) := by
  rcases launcher_cases bytes with (rfl | rfl) | ⟨line, hline, rfl⟩ | ⟨body, hbody⟩
  · contradiction
  · contradiction
  · rw [decode_of_launcher_error (dropLauncher_of_unterminated hline)] at h
    contradiction
  · obtain ⟨front, hfront, hbytes⟩ := hbody.launcher
    have hdrop := hbody.dropLauncher_eq
    rcases magic_cases body with hcut | ⟨-, hmagic⟩ | ⟨v, payload, rfl⟩
    · exact absurd (.inl ⟨p, h⟩) (hbody.outlook_of_cut hcut).1.not_settled
    · have herror := decode_of_magic_error (hbody.drop []) (hmagic [])
      rw [List.append_nil, h] at herror
      contradiction
    · by_cases hv : v = version
      · subst hv
        rcases hread : Payload.read payload with cause | ⟨q, rest⟩
        · rw [decode_of_read_error hdrop hread] at h
          contradiction
        · rw [decode_of_read_ok hdrop hread] at h
          obtain rfl := Except.ok.inj h
          exact ⟨front, payload, rest, hfront, hbytes, hdrop, hread⟩
      · rw [decode_of_version_ne hdrop hv] at h
        contradiction

theorem encode_injective : Function.Injective encode := by
  intro p q h
  rw [encode_eq_launcher_append, encode_eq_launcher_append] at h
  have hbody := List.append_cancel_left (List.append_cancel_left h)
  exact Payload.write_injective (List.cons.inj hbody).2

/-- Behind the launcher line, what is written for a program is the shortest form in which it is
    read, and no other form is as short. No two programs are written alike. An artifact that is read
    holds at least as many bytes as instructions, and what is written for its program takes its
    place: it is read as the same program, with the launcher line or without it. -/
theorem encode_unique_shortest :
    Function.Injective encode ∧
    ∀ bytes p, decode bytes = .ok p →
      ∃ front body canonical, IsLauncher front ∧ bytes = front ++ body ∧
        dropLauncher bytes = .ok body ∧ encode p = launcher ++ canonical ∧
        canonical.length ≤ body.length ∧
        (body.length = canonical.length → body = canonical) ∧
        p.ops.size ≤ bytes.length ∧
        decode (encode p) = .ok p ∧ decode canonical = .ok p := by
  refine ⟨encode_injective, ?_⟩
  intro bytes p h
  obtain ⟨front, payload, rest, hfront, rfl, hdrop, hread⟩ := of_decode_ok h
  obtain ⟨hsize, hspelling⟩ := Payload.spelling_program hread
  -- the mark and the version are there in both
  have hbody := (Spelling.exact (magic ++ [version]) payload).append hspelling
  simp only [List.append_assoc, List.singleton_append] at hbody
  have hlength := hspelling.length_le
  refine ⟨front, _, magic ++ version :: Payload.write p, hfront, rfl, hdrop,
    encode_eq_launcher_append p, ?_, ?_, ?_, decode_encode hsize, ?_⟩
  · exact Nat.le_trans (Nat.le_add_right _ _) hbody.length_le
  · exact fun heq => (hbody.eq_of_length_eq heq.symm).symm
  · have hops := Payload.size_le_length_write p
    simp only [List.length_append, List.length_cons]
    omega
  · have hwritten := Payload.reads_program hsize []
    rw [List.append_nil] at hwritten
    exact decode_of_read (.inl rfl) hwritten

/-- Numbers with a byte too many for the memory size, the number of instructions and the kind of the
    only one, and a byte behind it. -/
theorem encode_unique_shortest_overlong :
    decode ([0x23, 0x21, 0x0a] ++ magic ++ [1, 0x83, 0x00, 0, 1, 0x81, 0x00, 0x88, 0x00, 0xff])
      = .ok ⟨3, 0, true, #[.halt]⟩ ∧
    ∃ canonical, encode ⟨3, 0, true, #[.halt]⟩ = launcher ++ canonical ∧
      canonical.length ≤ 14 ∧ decode canonical = .ok ⟨3, 0, true, #[.halt]⟩ := by
  have hdecode : decode
      ([0x23, 0x21, 0x0a] ++ magic ++ [1, 0x83, 0x00, 0, 1, 0x81, 0x00, 0x88, 0x00, 0xff])
      = .ok ⟨3, 0, true, #[.halt]⟩ := rfl
  obtain ⟨front, body, canonical, -, -, hbody, hencode, hle, -, -, -, hcanonical⟩ :=
    encode_unique_shortest.2 _ _ hdecode
  obtain rfl := Except.ok.inj hbody
  exact ⟨hdecode, canonical, hencode, hle, hcanonical⟩

end Artifact

end Brainfuck
