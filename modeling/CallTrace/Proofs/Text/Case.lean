/-
What is raised stays as it is when it is raised again.

The places of the letters that are raised, and those of their capitals, are
taken as the bits of two numbers. The tables give these run by run, the
capitals of a run by a shift of its letters, and they have no bit in common.
That no capital is a mark which separates the pieces of a name is seen from
the ends of the runs: what lies between them is an ASCII capital or lies
beyond ASCII.
-/
import CallTrace.Proofs.Text.Qualified
import CallTrace.Text.Case

namespace CallTrace.Text

variable {c d : Char}

-- ============================================================== ASCII

/-- What holds of every ASCII character holds of a character that is
one. -/
theorem forall_ascii {p : Char → Prop}
    (h : ∀ n : Fin 128, p (Char.ofNat n)) :
    ∀ c, isAscii c = true → p c := by
  intro c hc
  have hlt : c.toNat < 128 := of_decide_eq_true hc
  have hn := h ⟨c.toNat, hlt⟩
  simp only [Char.ofNat_toNat] at hn
  exact hn

/-- An ASCII capital is ASCII and has no other capital; it is a mark only if
the letter was. -/
theorem toUpper_of_isAscii : ∀ c, isAscii c = true →
    isAscii c.toUpper = true ∧ c.toUpper.toUpper = c.toUpper ∧
      (c.toUpper ∈ joints false → c.toUpper = c) :=
  forall_ascii (by decide +kernel)

/-- No mark is a small letter. -/
theorem isSmall_of_mem_joints (h : c ∈ joints false) : isSmall c = false := by
  have hmarks : ∀ d ∈ ['.', ':'], isAscii d = true ∧ d.isLower = false :=
    forall_mem_of_all (by decide)
  obtain ⟨hascii, hlower⟩ := hmarks c h
  rw [isSmall, if_pos hascii, hlower]

-- ============================================================ capitals

/-- All places between two ends are of characters, either of ASCII capitals
or of characters beyond ASCII. -/
def areCapitals (lo hi : Nat) : Bool :=
  (Nat.ble 128 lo || Nat.ble 65 lo && Nat.ble hi 90) &&
    (Nat.ble hi 0xd7ff || Nat.ble 0xe000 lo && Nat.ble hi 0x10ffff)

/-- Such a character has no other ASCII capital, and is no mark. -/
theorem settled_of_areCapitals {lo hi n : Nat} (h : areCapitals lo hi = true)
    (hlo : lo ≤ n) (hhi : n ≤ hi) :
    0 < n ∧ (Char.ofNat n).toNat = n ∧
      (Char.ofNat n).toUpper = Char.ofNat n ∧ Char.ofNat n ∉ joints false := by
  simp only [areCapitals, Bool.and_eq_true, Bool.or_eq_true,
    Nat.ble_eq] at h
  obtain ⟨hcapital, hvalid⟩ := h
  have hvalid : n.isValidChar := by
    rw [Nat.isValidChar]
    omega
  have hplace : (Char.ofNat n).toNat = n := by
    rw [Char.ofNat, dif_pos hvalid]
    rfl
  have hsmall : ¬('a'.toNat ≤ n ∧ n ≤ 'z'.toNat) := by
    rw [show 'a'.toNat = 97 from rfl, show 'z'.toNat = 122 from rfl]
    omega
  refine ⟨by omega, hplace, dif_neg ?_, fun hmark => ?_⟩
  · rwa [UInt32.le_iff_toNat_le, UInt32.le_iff_toNat_le,
      show (Char.ofNat n).val.toNat = n from hplace]
  · have hmark : n = 46 ∨ n = 58 := by
      rw [← hplace]
      rcases List.mem_cons.1 hmark with hdot | hmark
      · exact .inl (congrArg Char.toNat hdot)
      · exact .inr (congrArg Char.toNat (List.mem_singleton.1 hmark))
    omega

-- =============================================================== bits

/-- Everything in a list, by the bits that each sets. -/
def bitsOf {α : Type} (bits : α → Nat) (l : List α) : Nat :=
  l.foldr (fun a m => bits a ||| m) 0

/-- A bit of one of the items is a bit of what they make together. -/
theorem testBit_bitsOf {α : Type} (bits : α → Nat) {l : List α} {a : α}
    {n : Nat} (ha : a ∈ l) (h : (bits a).testBit n = true) :
    (bitsOf bits l).testBit n = true := by
  induction l with
  | nil => cases ha
  | cons b l ih =>
    rw [bitsOf, List.foldr_cons, Nat.testBit_or, Bool.or_eq_true]
    rcases List.mem_cons.1 ha with rfl | ha
    · exact .inl h
    · exact .inr (ih ha)

theorem testBit_one_shiftLeft (n : Nat) : (1 <<< n).testBit n = true := by
  rw [Nat.one_shiftLeft, Nat.testBit_two_pow_self]

-- =============================================================== runs

namespace Raise

variable {r : Raise} {n : Nat}

/-- The capital of a letter of the run. -/
def raised (r : Raise) (n : Nat) : Nat := ((n : Int) + r.offset).toNat

/-- The places of its foremost letters. -/
def foremostBits (r : Raise) : Nat → Nat
  | 0 => 0
  | k + 1 => 1 <<< (r.first + k * r.step) ||| r.foremostBits k

/-- The places of its letters. -/
def letterBits (r : Raise) : Nat :=
  r.foremostBits ((r.last - r.first) / r.step + 1)

/-- The places of their capitals. -/
def capitalBits (r : Raise) : Nat :=
  match r.offset with
  | .ofNat k => r.letterBits <<< k
  | .negSucc k => r.letterBits >>> (k + 1)

theorem covers_iff : r.covers n = true ↔
    (r.first ≤ n ∧ n ≤ r.last) ∧ (n - r.first) % r.step = 0 := by
  simp [covers]

/-- The foremost places of a range are among its bits. -/
theorem testBit_foremostBits {i k : Nat} (h : i < k) :
    (r.foremostBits k).testBit (r.first + i * r.step) = true := by
  induction k with
  | zero => cases h
  | succ k ih =>
    rw [foremostBits, Nat.testBit_or, Bool.or_eq_true]
    rcases Nat.lt_succ_iff_lt_or_eq.1 h with h | rfl
    · exact .inr (ih h)
    · exact .inl (testBit_one_shiftLeft _)

/-- A letter that the range covers is among its letters. -/
theorem testBit_letterBits (h : r.covers n = true) :
    r.letterBits.testBit n = true := by
  obtain ⟨⟨hfirst, hlast⟩, hstep⟩ := covers_iff.1 h
  have hplace : r.first + (n - r.first) / r.step * r.step = n := by
    rw [Nat.div_mul_cancel (Nat.dvd_of_mod_eq_zero hstep),
      Nat.add_sub_cancel' hfirst]
  have hbit := testBit_foremostBits (r := r) (Nat.lt_succ_of_le
    (Nat.div_le_div_right (c := r.step) (Nat.sub_le_sub_right hlast r.first)))
  rwa [hplace] at hbit

/-- The capital of a letter that the range covers is among its capitals. -/
theorem testBit_capitalBits (h : r.covers n = true) (hpos : 0 < r.raised n) :
    r.capitalBits.testBit (r.raised n) = true := by
  have hletter := testBit_letterBits h
  rw [raised] at hpos ⊢
  rcases hoffset : r.offset with k | k <;> rw [hoffset] at hpos <;>
    simp only [capitalBits, hoffset]
  · rw [show ((n : Int) + .ofNat k).toNat = n + k from rfl,
      Nat.testBit_shiftLeft, Nat.add_sub_cancel, hletter]
    simp
  · rw [Nat.testBit_shiftRight, show k + 1 +
      ((n : Int) + .negSucc k).toNat = n by omega]
    exact hletter

/-- The capitals lie between those of the ends. -/
theorem raised_between (h : r.covers n = true) :
    r.raised r.first ≤ r.raised n ∧ r.raised n ≤ r.raised r.last := by
  obtain ⟨⟨hfirst, hlast⟩, -⟩ := covers_iff.1 h
  simp only [raised]
  omega

end Raise

-- ============================================================= tables

/-- The places of the letters that are raised. -/
def letterPlaces : Nat :=
  bitsOf Raise.letterBits raises ||| bitsOf (1 <<< ·.1) wideRaises

/-- The places of the capitals, of several for one letter that of the
first. -/
def capitalPlaces : Nat :=
  bitsOf Raise.capitalBits raises |||
    bitsOf (1 <<< ·.2.headD 0) wideRaises

/-- No capital is raised. -/
theorem letterPlaces_capitalPlaces : letterPlaces &&& capitalPlaces = 0 := by
  decide +kernel

theorem raises_areCapitals :
    (raises.all fun r =>
      areCapitals (r.raised r.first) (r.raised r.last)) = true := by
  decide +kernel

theorem wideRaises_areCapitals :
    (wideRaises.all fun w =>
      !w.2.isEmpty && w.2.all fun n => areCapitals n n) = true := by
  decide +kernel

/-- A letter in no table is not raised. -/
theorem upperChar_eq_self (hascii : d.toUpper = d)
    (hletter : letterPlaces.testBit d.toNat = false) : upperChar d = [d] := by
  rw [letterPlaces, Nat.testBit_or, Bool.or_eq_false_iff] at hletter
  have hfind : raises.find? (·.covers d.toNat) = none :=
    List.find?_eq_none.2 fun r hr hcover => by
      simp [testBit_bitsOf _ hr (Raise.testBit_letterBits hcover)] at hletter
  have hnone : wideRaises.find? (·.1 == d.toNat) = none :=
    List.find?_eq_none.2 fun w hw heq => by
      have hbit := testBit_bitsOf (fun w : Nat × List Nat => 1 <<< w.1) hw
        (testBit_one_shiftLeft _)
      simp only [beq_iff_eq] at heq
      simp [← heq, hbit] at hletter
  rw [upperChar, hascii, hfind, hnone]
  split <;> rfl

/-- A capital is not raised. -/
theorem upperChar_capital {n : Nat} (hplace : (Char.ofNat n).toNat = n)
    (hascii : (Char.ofNat n).toUpper = Char.ofNat n)
    (hcapital : capitalPlaces.testBit n = true) :
    upperChar (Char.ofNat n) = [Char.ofNat n] := by
  refine upperChar_eq_self hascii ?_
  have hboth := congrArg (·.testBit n) letterPlaces_capitalPlaces
  simpa [hplace, hcapital] using hboth

/-- The capital of a letter of a run is settled. -/
theorem upperChar_raised {r : Raise} (hr : r ∈ raises) {n : Nat}
    (hn : r.covers n = true) :
    upperChar (Char.ofNat (r.raised n)) = [Char.ofNat (r.raised n)] ∧
      Char.ofNat (r.raised n) ∉ joints false := by
  obtain ⟨hlo, hhi⟩ := Raise.raised_between hn
  obtain ⟨hpos, hplace, hascii, hmark⟩ := settled_of_areCapitals
    (List.all_eq_true.1 raises_areCapitals r hr) hlo hhi
  have hbit : capitalPlaces.testBit (r.raised n) = true := by
    rw [capitalPlaces, Nat.testBit_or, Bool.or_eq_true]
    exact .inl (testBit_bitsOf _ hr (Raise.testBit_capitalBits hn hpos))
  exact ⟨upperChar_capital hplace hascii hbit, hmark⟩

/-- Of the capitals of a letter with several, the first is settled, and none
is a mark. -/
theorem upperChar_wide {w : Nat × List Nat} (hw : w ∈ wideRaises) :
    ∃ n rest, w.2 = n :: rest ∧
      upperChar (Char.ofNat n) = [Char.ofNat n] ∧
      ∀ m ∈ w.2, Char.ofNat m ∉ joints false := by
  have hcapitals := List.all_eq_true.1 wideRaises_areCapitals w hw
  rw [Bool.and_eq_true, List.all_eq_true] at hcapitals
  have hsettled {m : Nat} (hm : m ∈ w.2) := settled_of_areCapitals
    (hcapitals.2 m hm) (Nat.le_refl m) (Nat.le_refl m)
  have hbit : capitalPlaces.testBit (w.2.headD 0) = true := by
    rw [capitalPlaces, Nat.testBit_or, Bool.or_eq_true]
    exact .inr (testBit_bitsOf
      (fun w : Nat × List Nat => 1 <<< w.2.headD 0) hw
      (testBit_one_shiftLeft _))
  rcases hlist : w.2 with _ | ⟨n, rest⟩
  · simp [hlist] at hcapitals
  · rw [hlist] at hbit
    obtain ⟨-, hplace, hascii, -⟩ := hsettled (hlist ▸ List.mem_cons_self)
    exact ⟨n, rest, rfl, upperChar_capital hplace hascii hbit,
      fun m hm => (hsettled (hlist ▸ hm)).2.2.2⟩

-- ============================================================ letters

/-- Raising a letter gives letters of which the first one is not raised
again. A mark is among them only if the letter is that mark. -/
theorem exists_upperChar (c : Char) :
    ∃ d rest, upperChar c = d :: rest ∧ upperChar d = [d] ∧
      ∀ e ∈ d :: rest, e ∈ joints false → e = c := by
  have hone {d : Char} (hd : upperChar d = [d])
      (hmark : d ∈ joints false → d = c) :
      ∃ d' rest, [d] = d' :: rest ∧ upperChar d' = [d'] ∧
        ∀ e ∈ d' :: rest, e ∈ joints false → e = c :=
    ⟨d, [], rfl, hd, fun e he => by rwa [List.mem_singleton.1 he]⟩
  rcases hc : isAscii c with _ | _
  · rcases hrun : raises.find? (·.covers c.toNat) with _ | r
    · rcases hwide : wideRaises.find? (·.1 == c.toNat) with _ | ⟨n, cs⟩
      · have hself : upperChar c = [c] := by
          rw [upperChar, hc, hrun, hwide]
          rfl
        rw [hself]
        exact hone hself fun _ => rfl
      · have hmem := List.mem_of_find?_eq_some hwide
        obtain ⟨m, rest, rfl, hsettled, hmarks⟩ := upperChar_wide hmem
        have hupper : upperChar c = Char.ofNat m :: rest.map Char.ofNat := by
          rw [upperChar, hc, hrun, hwide]
          rfl
        refine ⟨_, _, hupper, hsettled, fun e he hmark => ?_⟩
        obtain ⟨k, hk, rfl⟩ := List.mem_map.1 (List.map_cons ▸ he)
        exact absurd hmark (hmarks k hk)
    · have hupper : upperChar c = [Char.ofNat (r.raised c.toNat)] := by
        rw [upperChar, hc, hrun]
        rfl
      have hr := List.mem_of_find?_eq_some hrun
      have hcover := List.find?_some hrun
      obtain ⟨hsettled, hmark⟩ := upperChar_raised hr hcover
      rw [hupper]
      exact hone hsettled fun h => absurd h hmark
  · obtain ⟨hascii, htwice, hmark⟩ := toUpper_of_isAscii c hc
    have hupper {c : Char} (hc : isAscii c = true) :
        upperChar c = [c.toUpper] := by
      rw [upperChar, if_pos hc]
    rw [hupper hc]
    exact hone ((hupper hascii).trans (congrArg (fun c => [c]) htwice)) hmark

end CallTrace.Text
