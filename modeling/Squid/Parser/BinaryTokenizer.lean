import Squid.Parser.Tokenizer
import Squid.Ip.Address
import Squid.Lib.ExceptState

/-!
# The binary tokenizer (`parser/BinaryTokenizer.cc`)

`Parser::BinaryTokenizer` reads big-endian numbers and byte areas from an `SBuf`, counting
the bytes parsed.  A read that needs more bytes than remain throws `InsufficientInput` if the
tokenizer expects more input, and fails `Must(expectMore_)` if it does not.

* `uint8`, `uint16`, `area`, `skip`, `pstring16`, `inet4`, `inet6`   the reads;
* `Reads`   what a read that succeeds does to the tokenizer: it moves forward within the data;
* `uint8_extend`, `uint16_extend`, `area_extend`, `pstring16_extend`   a tokenizer that expects
  more input reads the same on a longer buffer, unless it threw `InsufficientInput`.
-/

namespace Squid.Parser

structure BinaryTokenizer where
  data : List UInt8
  parsed : Nat
  expectMore : Bool
  deriving DecidableEq, Repr

namespace BinaryTokenizer
variable (t : BinaryTokenizer)

/-- `BinaryTokenizer(data, expectMore)` -/
def ofData (data : List UInt8) (expectMore : Bool) : BinaryTokenizer := ⟨data, 0, expectMore⟩

def atEnd : Bool := t.data.length ≤ t.parsed

/-- `want(size)`: throws if fewer than `size` bytes remain -/
def want (size : Nat) : Except ParseError Unit :=
  if t.data.length < t.parsed + size then
    if t.expectMore then .error .insufficientInput
    else .error (.textException "check failed: expectMore_")
  else .ok ()

/-- `octet()`, which checks no bounds -/
def octet : UInt8 × BinaryTokenizer := (t.data.getD t.parsed 0, { t with parsed := t.parsed + 1 })

def uint8 : Except ParseError (UInt8 × BinaryTokenizer) := do
  t.want 1
  pure t.octet

def uint16 : Except ParseError (UInt16 × BinaryTokenizer) := do
  t.want 2
  let (hi, t₁) := t.octet
  let (lo, t₂) := t₁.octet
  pure ((hi.toUInt16 <<< 8) ||| lo.toUInt16, t₂)

def area (size : Nat) : Except ParseError (List UInt8 × BinaryTokenizer) := do
  t.want size
  pure ((t.data.drop t.parsed).take size, { t with parsed := t.parsed + size })

def skip (size : Nat) : Except ParseError BinaryTokenizer := do
  t.want size
  pure { t with parsed := t.parsed + size }

/-- `pstring16()`: a 16-bit length, then that many bytes -/
def pstring16 : Except ParseError (List UInt8 × BinaryTokenizer) := do
  let (length, t₁) ← t.uint16
  if length = 0 then pure ([], t₁) else t₁.area length.toNat

/-- `inet4()`: an `in_addr`, which `Ip::Address` keeps mapped to IPv6 -/
def inet4 : Except ParseError (Ip.Address × BinaryTokenizer) := do
  t.want 4
  pure (Ip.Address.v4 (t.data.getD t.parsed 0) (t.data.getD (t.parsed + 1) 0)
      (t.data.getD (t.parsed + 2) 0) (t.data.getD (t.parsed + 3) 0),
    { t with parsed := t.parsed + 4 })

/-- `inet6()`: an `in6_addr` -/
def inet6 : Except ParseError (Ip.Address × BinaryTokenizer) := do
  t.want 16
  pure (⟨List.ofFn fun i : Fin 16 => t.data.getD (t.parsed + i) 0, List.length_ofFn⟩,
    { t with parsed := t.parsed + 16 })

/-! ## reads that succeed -/

/-- `t'` is `t` moved forward within its data -/
def Reads (t' : BinaryTokenizer) : Prop :=
  t'.data = t.data ∧ t'.expectMore = t.expectMore ∧ t.parsed ≤ t'.parsed ∧
    t'.parsed ≤ t.data.length

section Reads
variable {t}

theorem Reads.trans {t₁ t₂ : BinaryTokenizer} (h₁ : t.Reads t₁) (h₂ : t₁.Reads t₂) :
    t.Reads t₂ := by
  obtain ⟨hd₁, he₁, hp₁, hl₁⟩ := h₁
  obtain ⟨hd₂, he₂, hp₂, hl₂⟩ := h₂
  exact ⟨hd₂.trans hd₁, he₂.trans he₁, Nat.le_trans hp₁ hp₂, hd₁ ▸ hl₂⟩

theorem want_ok {size : Nat} {u : Unit} (h : t.want size = .ok u) :
    t.parsed + size ≤ t.data.length := by
  unfold want at h
  split at h
  · split at h <;> cases h
  · omega

theorem uint8_ok {v : UInt8} {t' : BinaryTokenizer} (h : t.uint8 = .ok (v, t')) :
    t.Reads t' ∧ t'.parsed = t.parsed + 1 := by
  cases hw : t.want 1 with
  | error e => simp [uint8, hw] at h
  | ok u =>
    have hl := want_ok hw
    simp only [uint8, hw] at h
    cases h
    exact ⟨⟨rfl, rfl, by simp, by simp; omega⟩, rfl⟩

theorem uint16_ok {v : UInt16} {t' : BinaryTokenizer} (h : t.uint16 = .ok (v, t')) :
    t.Reads t' := by
  cases hw : t.want 2 with
  | error e => simp [uint16, hw] at h
  | ok u =>
    have hl := want_ok hw
    simp only [uint16, hw] at h
    cases h
    exact ⟨rfl, rfl, by simp only [octet]; omega, by simp only [octet]; omega⟩

theorem area_ok {size : Nat} {v : List UInt8} {t' : BinaryTokenizer}
    (h : t.area size = .ok (v, t')) : t.Reads t' := by
  cases hw : t.want size with
  | error e => simp [area, hw] at h
  | ok u =>
    have hl := want_ok hw
    simp only [area, hw] at h
    cases h
    exact ⟨rfl, rfl, by simp, by simp; omega⟩

theorem pstring16_ok {v : List UInt8} {t' : BinaryTokenizer} (h : t.pstring16 = .ok (v, t')) :
    t.Reads t' := by
  cases hu : t.uint16 with
  | error e => simp [pstring16, hu, bind, Except.bind] at h
  | ok r =>
    obtain ⟨length, t₁⟩ := r
    have h₁ := uint16_ok hu
    simp only [pstring16, hu, bind, Except.bind] at h
    split at h
    · cases h
      exact h₁
    · exact h₁.trans (area_ok h)

end Reads

/-! ## more input after the buffer -/

/-- the tokenizer over its data followed by `x` -/
def extend (x : List UInt8) : BinaryTokenizer := { t with data := t.data ++ x }

section Extend
variable {t}

theorem want_eq_ok {size : Nat} (h : t.parsed + size ≤ t.data.length) :
    t.want size = .ok () := by
  rw [want, if_neg (by omega)]

theorem want_short {size : Nat} (he : t.expectMore = true)
    (h : t.data.length < t.parsed + size) : t.want size = .error .insufficientInput := by
  rw [want, if_pos h, if_pos he]

theorem octet_extend (h : t.parsed < t.data.length) (x : List UInt8) :
    (t.extend x).octet = (t.octet.1, t.octet.2.extend x) := by
  simp [octet, extend, List.getD_eq_getElem?_getD, List.getElem?_append_left h]

/-- the result of a read carried over to the extended tokenizer -/
def extendResult {β : Type} (x : List UInt8) (r : β × BinaryTokenizer) : β × BinaryTokenizer :=
  (r.1, r.2.extend x)

theorem uint8_extend (he : t.expectMore = true) (x : List UInt8) :
    ExceptState.Keeps .insufficientInput (extendResult x) t.uint8 (t.extend x).uint8 := by
  intro hne
  by_cases hl : t.parsed + 1 ≤ t.data.length
  · have hl' : (t.extend x).parsed + 1 ≤ (t.extend x).data.length := by
      simp only [extend, List.length_append]
      omega
    simp only [uint8, want_eq_ok hl, want_eq_ok hl', bind, Except.bind, pure, Except.pure,
      octet_extend (show t.parsed < t.data.length by omega)]
    rfl
  · exact absurd (by simp [uint8, want_short he (show t.data.length < t.parsed + 1 by omega),
      bind, Except.bind]) hne

theorem uint16_extend (he : t.expectMore = true) (x : List UInt8) :
    ExceptState.Keeps .insufficientInput (extendResult x) t.uint16 (t.extend x).uint16 := by
  intro hne
  by_cases hl : t.parsed + 2 ≤ t.data.length
  · have hl' : (t.extend x).parsed + 2 ≤ (t.extend x).data.length := by
      simp only [extend, List.length_append]
      omega
    have h₂ : (t.octet.2.extend x).octet = (t.octet.2.octet.1, t.octet.2.octet.2.extend x) :=
      octet_extend (show t.octet.2.parsed < t.octet.2.data.length by simp only [octet]; omega) x
    simp only [uint16, want_eq_ok hl, want_eq_ok hl', bind, Except.bind, pure, Except.pure,
      octet_extend (show t.parsed < t.data.length by omega), h₂]
    rfl
  · exact absurd (by simp [uint16, want_short he (show t.data.length < t.parsed + 2 by omega),
      bind, Except.bind]) hne

theorem area_extend (he : t.expectMore = true) (size : Nat) (x : List UInt8) :
    ExceptState.Keeps .insufficientInput (extendResult x) (t.area size) ((t.extend x).area size) := by
  intro hne
  by_cases hl : t.parsed + size ≤ t.data.length
  · have hl' : (t.extend x).parsed + size ≤ (t.extend x).data.length := by
      simp only [extend, List.length_append]
      omega
    have hbytes : ((t.extend x).data.drop t.parsed).take size = (t.data.drop t.parsed).take size := by
      rw [show (t.extend x).data = t.data ++ x from rfl, List.drop_append_of_le_length (by omega),
        List.take_append_of_le_length (by simp; omega)]
    simp only [area, want_eq_ok hl, want_eq_ok hl', bind, Except.bind, pure, Except.pure]
    rw [show (t.extend x).parsed = t.parsed from rfl, hbytes]
    rfl
  · exact absurd (by simp [area, want_short he (show t.data.length < t.parsed + size by omega),
      bind, Except.bind]) hne

theorem pstring16_extend (he : t.expectMore = true) (x : List UInt8) :
    ExceptState.Keeps .insufficientInput (extendResult x) t.pstring16 (t.extend x).pstring16 := by
  refine ExceptState.Keeps.bind (uint16_extend he x) fun ⟨length, t₁⟩ hu => ?_
  show ExceptState.Keeps _ _ (if length = 0 then pure ([], t₁) else t₁.area length.toNat)
    (if length = 0 then pure ([], t₁.extend x) else (t₁.extend x).area length.toNat)
  split
  · intro _
    rfl
  · exact area_extend ((uint16_ok hu).2.1.trans he) _ x

end Extend

/-! ## reads of known bytes

The bytes a read finds are given as `t.data.drop t.parsed`, what remains after the bytes
already parsed.  A 16-bit number is big-endian: `be16 n`. -/

/-- `n` as a big-endian 16-bit number -/
def be16 (n : Nat) : List UInt8 := [(n / 256).toUInt8, (n % 256).toUInt8]

/-- the value `uint16()` makes of two octets, the first one high -/
theorem uint16_toNat (hi lo : UInt8) :
    ((hi.toUInt16 <<< 8) ||| lo.toUInt16).toNat = hi.toNat * 256 + lo.toNat := by
  have h₁ := hi.toNat_lt
  have h₂ := lo.toNat_lt
  rw [UInt16.toNat_or, UInt16.toNat_shiftLeft]
  simp only [UInt8.toNat_toUInt16, UInt16.toNat_ofNat, Nat.reduceMod, Nat.reducePow]
  rw [Nat.mod_eq_of_lt (by omega), ← Nat.shiftLeft_add_eq_or_of_lt (by omega), Nat.shiftLeft_eq]

theorem uint16_be16 {n : Nat} (hn : n < 65536) :
    (((n / 256).toUInt8.toUInt16 <<< 8) ||| (n % 256).toUInt8.toUInt16) = n.toUInt16 := by
  apply UInt16.toNat_inj.mp
  rw [uint16_toNat]
  simp
  omega

section Known
variable {t}

theorem getD_of_drop {bytes : List UInt8} (h : t.data.drop t.parsed = bytes) (i : Nat) :
    t.data.getD (t.parsed + i) 0 = bytes.getD i 0 := by
  rw [← h, List.getD_eq_getElem?_getD, List.getD_eq_getElem?_getD, List.getElem?_drop]

theorem length_le_of_drop {bytes : List UInt8} (h : t.data.drop t.parsed = bytes)
    (hne : 0 < bytes.length) : t.parsed + bytes.length ≤ t.data.length := by
  have := congrArg List.length h
  rw [List.length_drop] at this
  omega

theorem uint8_eq {b : UInt8} {rest : List UInt8} (h : t.data.drop t.parsed = b :: rest) :
    t.uint8 = .ok (b, { t with parsed := t.parsed + 1 }) := by
  have hl := length_le_of_drop h (by simp)
  have hb := getD_of_drop h 0
  rw [Nat.add_zero] at hb
  simp only [uint8, want_eq_ok (show t.parsed + 1 ≤ t.data.length by simp at hl; omega), octet,
    hb, bind, Except.bind, pure, Except.pure]
  rfl

theorem uint16_eq {n : Nat} {rest : List UInt8} (hn : n < 65536)
    (h : t.data.drop t.parsed = be16 n ++ rest) :
    t.uint16 = .ok (n.toUInt16, { t with parsed := t.parsed + 2 }) := by
  have hl := length_le_of_drop h (by simp [be16])
  have h₀ := getD_of_drop h 0
  have h₁ := getD_of_drop h 1
  rw [Nat.add_zero] at h₀
  simp only [be16, List.cons_append, List.getD_cons_zero, List.getD_cons_succ] at h₀ h₁
  simp only [uint16, want_eq_ok (show t.parsed + 2 ≤ t.data.length by simp [be16] at hl; omega),
    octet, h₀, h₁, bind, Except.bind, pure, Except.pure, uint16_be16 hn]

theorem area_eq {bytes rest : List UInt8} (h : t.data.drop t.parsed = bytes ++ rest)
    (hne : bytes ≠ []) :
    t.area bytes.length = .ok (bytes, { t with parsed := t.parsed + bytes.length }) := by
  have hl := length_le_of_drop h (by simp [List.length_pos_of_ne_nil hne])
  simp only [List.length_append] at hl
  simp only [area, want_eq_ok (show t.parsed + bytes.length ≤ t.data.length by omega), h,
    List.take_left, bind, Except.bind, pure, Except.pure]

theorem pstring16_eq {v rest : List UInt8} (hv : v.length < 65536)
    (h : t.data.drop t.parsed = be16 v.length ++ v ++ rest) :
    t.pstring16 = .ok (v, { t with parsed := t.parsed + 2 + v.length }) := by
  rw [List.append_assoc] at h
  rw [pstring16, uint16_eq hv h]
  simp only [bind, Except.bind]
  by_cases hz : v.length = 0
  · rw [List.length_eq_zero_iff.mp hz]
    rfl
  · have hne : v.length.toUInt16 ≠ 0 := fun he => hz (by
      have := congrArg UInt16.toNat he
      simp at this
      omega)
    have hdrop : ({ t with parsed := t.parsed + 2 } : BinaryTokenizer).data.drop
        ({ t with parsed := t.parsed + 2 } : BinaryTokenizer).parsed = v ++ rest := by
      show t.data.drop (t.parsed + 2) = v ++ rest
      rw [← List.drop_drop, h]
      rfl
    rw [if_neg hne, show v.length.toUInt16.toNat = v.length by simp; omega,
      area_eq hdrop (fun he => hz (by rw [he]; rfl))]

theorem inet4_eq {a b c d : UInt8} {rest : List UInt8}
    (h : t.data.drop t.parsed = a :: b :: c :: d :: rest) :
    t.inet4 = .ok (Ip.Address.v4 a b c d, { t with parsed := t.parsed + 4 }) := by
  have hl := length_le_of_drop h (by simp)
  simp only [List.length_cons] at hl
  have h₀ := getD_of_drop h 0
  rw [Nat.add_zero] at h₀
  simp only [inet4, want_eq_ok (show t.parsed + 4 ≤ t.data.length by omega), h₀,
    getD_of_drop h 1, getD_of_drop h 2, getD_of_drop h 3, bind, Except.bind, pure, Except.pure]
  rfl

theorem inet6_eq {addr rest : List UInt8} (hlen : addr.length = 16)
    (h : t.data.drop t.parsed = addr ++ rest) :
    t.inet6 = .ok (⟨addr, hlen⟩, { t with parsed := t.parsed + 16 }) := by
  have hl := length_le_of_drop h (by simp [hlen])
  simp only [List.length_append] at hl
  have hbytes : (List.ofFn fun i : Fin 16 => t.data.getD (t.parsed + i) 0) = addr := by
    apply List.ext_getElem
    · rw [List.length_ofFn, hlen]
    · intro i hi _
      rw [List.getElem_ofFn, getD_of_drop h, List.getD_append _ _ _ _ (by omega),
        List.getD_eq_getElem _ _ (by omega)]
  simp only [inet6, want_eq_ok (show t.parsed + 16 ≤ t.data.length by omega), bind, Except.bind,
    pure, Except.pure, Except.ok.injEq, Prod.mk.injEq, and_true]
  rw [Ip.Address.mk.injEq]
  exact hbytes

theorem pstring16_error {e : ParseError} (h : t.uint16 = .error e) : t.pstring16 = .error e := by
  simp only [pstring16, h, bind, Except.bind]

/-! A tokenizer that expects no more input fails `Must(expectMore_)` when a read needs more
bytes than remain. -/

theorem want_fails {size : Nat} (he : t.expectMore = false)
    (h : t.data.length < t.parsed + size) :
    t.want size = .error (.textException "check failed: expectMore_") := by
  rw [want, if_pos h, he]
  rfl

theorem uint8_short (he : t.expectMore = false) (h : t.data.length < t.parsed + 1) :
    t.uint8 = .error (.textException "check failed: expectMore_") := by
  simp only [uint8, want_fails he h, bind, Except.bind]

theorem uint16_short (he : t.expectMore = false) (h : t.data.length < t.parsed + 2) :
    t.uint16 = .error (.textException "check failed: expectMore_") := by
  simp only [uint16, want_fails he h, bind, Except.bind]

theorem area_short {size : Nat} (he : t.expectMore = false)
    (h : t.data.length < t.parsed + size) :
    t.area size = .error (.textException "check failed: expectMore_") := by
  simp only [area, want_fails he h, bind, Except.bind]

end Known

end BinaryTokenizer

end Squid.Parser
