/-
Which calls of a reply are refused for the names of their targets.

Before anything is spent on a method, its names are looked at, and those
that no method can have are answered by a leaf that calls the reference
invalid. The reader of replies has a rule of its own for names. The two
agree: what is read from a reply about a type that may itself be asked
about is refused for nothing but the length of a name.
-/
import CallTrace.Proofs.Reply.Targets
import CallTrace.Proofs.Run.Contained

namespace CallTrace.Run.Tracer

variable {σ : Type} {s : Session} {key : MethodKey}

-- ============================================================ refusals

/-- The reference is taken for an invalid one: whatever leaves are like,
what is known of the method is the leaf that says so. -/
def Refuses (s : Session) (key : MethodKey) : Prop :=
  ∀ leaf : Status → String → Analysis,
    known? s key leaf = some (leaf .failed (invalidReason key))

/-- A method is refused for its name alone, unless it was come to before or
there is nothing left to spend on it. -/
theorem refuses_iff : Refuses s key ↔
    key ∉ s.visited ∧ s.analyzed < s.limits.maxMethods ∧
      Source.isPlausible key.typeName key.methodName = false := by
  constructor
  · intro h
    -- Two ways to make leaves tell a leaf from what is registered, and
    -- the leaves apart by their status.
    let leaf (now : Number.Double) (status : Status) (reason : String) :=
      Analysis.placeholder key status reason now
    have hzero := h (leaf .zero)
    have hone := h (leaf (.ofInt 1))
    unfold known? at hzero hone
    split at hzero
    · rename_i hvisited
      rw [if_pos hvisited] at hone
      split at hzero
      · cases congrArg (·.map (·.status)) hzero
      · rename_i hstack
        rw [if_neg hstack] at hone
        cases hget : s.registry.get? key with
        | none =>
          rw [hget] at hzero
          cases congrArg (·.map (·.status)) hzero
        | some a =>
          rw [hget] at hzero hone
          have hnow : Number.Double.zero = .ofInt 1 :=
            Option.some.inj (congrArg (·.map (·.createdAt))
              (hzero.symm.trans hone))
          exact absurd hnow (by decide)
    rename_i hvisited
    split at hzero
    · cases congrArg (·.map (·.status)) hzero
    split at hzero
    · rename_i hroom hname
      refine ⟨?_, Nat.lt_of_not_le hroom, by simpa using hname⟩
      exact fun hmem => hvisited (List.contains_iff_mem.2 hmem)
    · cases hzero
  · intro ⟨hfresh, hroom, hname⟩ leaf
    unfold known?
    rw [if_neg (by simpa using hfresh), if_neg (by omega),
      if_pos (by rw [hname]; rfl)]

/-- A call to what is refused is answered by the leaf, and that is all. -/
theorem Refuses.answer {t : Tracer σ} {f : Frame} {c : CallSite}
    {s : State σ} (h : Refuses s.session c.key) (levels : Nat) :
    t.answer (levels + 1) f c s =
      (.placeholder c.key .failed (invalidReason c.key) s.timeOfDay, s) := by
  rw [Tracer.answer, stateM_bind_run, trace, stateM_get_bind,
    show (frameOf c f.depth).key = c.key from rfl,
    h fun status reason => .placeholder c.key status reason s.timeOfDay]
  rfl

-- =============================================================== calls

/-- A call that is met is one of those that were to be traced. -/
theorem Meets.mem {step : CallSite → StateM (State σ) Analysis}
    {cs : List CallSite} {bs : List Block} {s s' : State σ} {c : CallSite}
    (h : Meets step cs bs s c s') : c ∈ cs ++ bs.flatMap (·.calls) := by
  induction h with
  | block _ ih => simpa using ih
  | passed _ _ ih | later _ _ ih => exact List.mem_cons_of_mem _ ih
  | here => exact List.mem_cons_self

/-- What is read from a reply about a type that may be asked about goes to
targets of one form: the method is an identifier, and the type is that
type or an identifier. They are worth a request just when neither name has
more than 200 characters. So a call of the reply that is come to while it
is worked off is refused, that is, answered by the leaf of an invalid
reference, only if one of its names is longer. -/
theorem parse_targets (t : Tracer σ) {owner method : String}
    (howner : Source.isPlausible owner method = true) (text : String) :
    (∀ c ∈ (Reply.parse owner text).calls,
      Text.isIdent c.targetMethod.toList = true ∧
      (c.targetType = owner ∨ Text.isIdent c.targetType.toList = true) ∧
      (Source.isPlausible c.targetType c.targetMethod = true ↔
        c.targetType.length ≤ 200 ∧ c.targetMethod.length ≤ 200)) ∧
    ∀ levels f s c s',
      Meets (t.answer levels f) [] (Reply.parse owner text).blocks s c s' →
      Refuses s'.session c.key →
      200 < c.targetType.length ∨ 200 < c.targetMethod.length := by
  have hcalls : ∀ c ∈ (Reply.parse owner text).calls,
      Source.isPlausible c.targetType c.targetMethod = true ↔
        c.targetType.length ≤ 200 ∧ c.targetMethod.length ≤ 200 :=
    fun c hc => (Reply.aimed_parse owner text c hc).isPlausible_iff howner
  constructor
  · intro c hc
    obtain ⟨hmethod, htype⟩ := Reply.aimed_parse owner text c hc
    exact ⟨hmethod, htype, hcalls c hc⟩
  · intro levels f s c s' hmeets hrefuses
    obtain ⟨-, -, hname⟩ := refuses_iff.1 hrefuses
    have hlong := (hcalls c hmeets.mem).not.1 (Bool.eq_false_iff.1 hname)
    omega

/-- A name that is one character too long. -/
def longName : List Char := List.replicate 201 'x'

/-- The text of a reply with a call to a method of that name. -/
def longText : List Char :=
  "### Block 1: w\n- **Call**: `".toList ++
    (longName ++ "()`\n- **Classification**: yes".toList)

/-- The call is refused, and answered by the leaf. -/
theorem parse_targets_long :
    Source.isPlausible "A" "m" = true ∧
    ∃ c, Meets (pairTracer.answer 1 ⟨⟨"A", "m"⟩, 0, false⟩) []
        (Reply.parse "A" (String.ofList longText)).blocks pairStart c
        pairStart ∧
      Refuses pairStart.session c.key ∧
      (pairTracer.answer 1 ⟨⟨"A", "m"⟩, 0, false⟩ c pairStart).1 =
        .placeholder c.key .failed (invalidReason c.key)
          pairStart.timeOfDay ∧
      (200 < c.targetType.length ∨ 200 < c.targetMethod.length) := by
  have howner : Source.isPlausible "A" "m" = true := by decide
  have hblocks : (Reply.parse "A" (String.ofList longText)).blocks.map
      (fun b => b.calls.map fun c =>
        (c.decision, c.targetMethod == String.ofList longName)) =
      [[(.stepInto, true)]] := by
    unfold Reply.parse
    simp only [String.toList_ofList]
    decide +kernel
  obtain ⟨b, hb, hcalls⟩ := List.map_eq_singleton_iff.1 hblocks
  obtain ⟨c, hc, hcall⟩ := List.map_eq_singleton_iff.1 hcalls
  obtain ⟨hinto, hmethod⟩ := Prod.mk.inj hcall
  have hlong : c.targetMethod.length = 201 := by
    rw [beq_iff_eq.1 hmethod, String.length_ofList, longName,
      List.length_replicate]
  have hmeets : Meets (pairTracer.answer 1 ⟨⟨"A", "m"⟩, 0, false⟩) []
      (Reply.parse "A" (String.ofList longText)).blocks pairStart c
      pairStart := by
    rw [hb]
    apply Meets.block
    rw [hc]
    apply Meets.here
    rw [hinto]
    decide
  have hrefuses : Refuses pairStart.session c.key := by
    refine refuses_iff.2 ⟨List.not_mem_nil, by decide, ?_⟩
    apply Bool.eq_false_iff.2
    intro hname
    obtain ⟨-, ⟨-, hlength⟩, -⟩ := Source.isPlausible_iff.1 hname
    exact absurd (hlong ▸ hlength) (by decide)
  obtain ⟨-, honly⟩ := parse_targets pairTracer howner _
  exact ⟨howner, c, hmeets, hrefuses, congrArg Prod.fst (hrefuses.answer 0),
    honly _ _ _ _ _ hmeets hrefuses⟩

end CallTrace.Run.Tracer
