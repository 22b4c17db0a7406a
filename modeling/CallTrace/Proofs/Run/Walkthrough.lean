/-
The walkthrough of a run agrees with the run.

What a run has entered, in order and with the depths, is what it has told
its listener. The lines of its walkthrough, read off its tour, are compared
with that.
-/
import CallTrace.Proofs.Run.Lines
import CallTrace.Proofs.Trace.Walkthrough
import CallTrace.Run.Layers

namespace CallTrace.Run

open Number (Double)
open Trace

variable {σ : Type}

namespace Tour

/-- The methods entered, in order, with the depths at which they are. The
tour is one of calls at a depth. -/
def starts : Int → Tour → List (MethodKey × Int)
  | _, done => []
  | d, block _ rest | d, passed _ rest | d, leaf _ _ rest => starts d rest
  | d, failed c _ rest => (c.key, d + 1) :: starts d rest
  | d, entered c _ inside rest =>
    (c.key, d + 1) :: (starts (d + 1) inside ++ starts d rest)

theorem map_fst_starts (d : Int) (T : Tour) :
    (T.starts d).map (·.1) = T.entries := by
  induction T generalizing d with
  | done => rfl
  | block _ _ ih | passed _ _ ih | leaf _ _ _ ih => exact ih d
  | failed c _ _ ih => exact congrArg (c.key :: ·) (ih d)
  | entered c _ _ _ ihI ih => simp [starts, entries, ihI, ih]

/-- What is entered on a tour is entered below its depth. -/
theorem starts_deeper (d : Int) (T : Tour) : ∀ e ∈ T.starts d, d < e.2 := by
  induction T generalizing d with
  | done => exact fun e he => absurd he List.not_mem_nil
  | block _ _ ih | passed _ _ ih | leaf _ _ _ ih => exact ih d
  | failed c _ _ ih =>
    refine List.forall_mem_cons.2 ⟨?_, ih d⟩
    show d < d + 1
    omega
  | entered c _ _ _ ihI ih =>
    refine List.forall_mem_cons.2 ⟨?_, List.forall_mem_append.2
      ⟨fun e he => ?_, ih d⟩⟩
    · show d < d + 1
      omega
    · have := ihI (d + 1) e he
      omega

/-- What is entered at the outermost level of the tour inside is entered
from the method that this is the tour of. -/
theorem enters_of_inside {c : CallSite} {b : Analysis} {I T : Tour} {d : Int}
    {k : MethodKey} (hk : (k, d + 1 + 1) ∈ I.starts (d + 1)) :
    Enters ((entered c b I T).starts d) c.key k := by
  obtain ⟨between, after, hI⟩ := List.append_of_mem hk
  refine ⟨d + 1, [], between, after ++ T.starts d, ?_, fun e he => ?_⟩
  · rw [starts, hI]
    simp
  · exact I.starts_deeper _ e (hI ▸ List.mem_append_left _ he)

-- ========================================================== depths

variable (at_ : MethodKey → Nat)

theorem depth_announceLines {p : Analysis} {b : Block} {c : CallSite}
    {d : Nat} {l : Line} (h : l ∈ announceLines p b c d) : l.depth = d := by
  rw [announceLines_eq] at h
  obtain ⟨m, -, rfl⟩ := List.mem_map.1 h
  rfl

theorem depth_skipLines {p : Analysis} {c : CallSite} {status : Status}
    {d : Nat} {l : Line} (h : l ∈ skipLines p c status d) :
    d ≤ l.depth ∧ l.depth ≤ d + 1 := by
  simp only [skipLines, List.mem_cons, List.not_mem_nil, or_false] at h
  rcases h with rfl | rfl | rfl | rfl <;> simp

/-- The lines of the rest of a method are as deep as it is, or deeper, and
no deeper than methods are nested, with one level more for what is not
expanded. -/
theorem depth_lines (T : Tour) (p : Analysis) (d : Nat) (b : Block) :
    ∀ l ∈ T.lines at_ p d b, d ≤ l.depth ∧ l.depth ≤ d + T.height + 1 := by
  induction T generalizing p d b with
  | done => exact fun l hl => absurd hl List.not_mem_nil
  | block b' rest ih =>
    refine List.forall_mem_cons.2 ⟨?_, ih p d _⟩
    show d ≤ d ∧ d ≤ _
    omega
  | passed c rest ih =>
    refine List.forall_mem_append.2 ⟨fun l hl => ?_, ih p d b⟩
    rw [depth_announceLines hl]
    omega
  | leaf c a rest ih =>
    refine List.forall_mem_append.2 ⟨List.forall_mem_append.2
      ⟨fun l hl => ?_, fun l hl => ?_⟩, ih p d b⟩
    · rw [depth_announceLines hl]
      omega
    · split at hl
      · rw [List.mem_singleton.1 hl]
        show d ≤ d ∧ d ≤ _
        omega
      · have := depth_skipLines hl
        omega
  | failed c a rest ih =>
    refine List.forall_mem_append.2 ⟨List.forall_mem_append.2
      ⟨fun l hl => ?_, fun l hl => ?_⟩, ih p d b⟩
    · rw [depth_announceLines hl]
      omega
    · have := depth_skipLines hl
      omega
  | entered c x inside rest ihI ih =>
    have hle : inside.height + 1 ≤ (entered c x inside rest).height :=
      Nat.le_max_left ..
    have hle' : rest.height ≤ (entered c x inside rest).height :=
      Nat.le_max_right ..
    have hmark : ∀ n, d ≤ n → n ≤ d + 1 → d ≤ n ∧
        n ≤ d + (entered c x inside rest).height + 1 := by
      intro n hn hn'
      omega
    refine List.forall_mem_append.2 ⟨fun l hl => ?_, List.forall_mem_cons.2
      ⟨hmark _ (by simp) (by simp), List.forall_mem_append.2
        ⟨fun l hl => ?_, List.forall_mem_cons.2 ⟨hmark _ (by simp) (by simp),
          List.forall_mem_cons.2 ⟨hmark _ (by simp) (by simp),
            fun l hl => ?_⟩⟩⟩⟩⟩
    · rw [depth_announceLines hl]
      omega
    · have := ihI (expanded x inside) (d + 1) b l hl
      omega
    · have := ih p d b l hl
      omega

/-- At its own depth the rest of a method has its own script. -/
theorem ownMarks_lines (T : Tour) (p : Analysis) (d : Nat) (b : Block) :
    ownMarks d (T.lines at_ p d b) =
      T.calls.flatMap (callScript p b) ++ T.blocks.flatMap (blockScript p) := by
  induction T generalizing b with
  | done => rfl
  | block b' rest ih =>
    rw [lines, calls_block, blocks_block, List.flatMap_cons, blockScript,
      calls_enrichBlock]
    have hcons : ∀ (m : Mark) (ls : List Line), m.isReturn = false →
        ownMarks d (⟨d, m⟩ :: ls) = m :: ownMarks d ls := by
      intro m ls hm
      simp [ownMarks, hm]
    rw [hcons _ _ rfl, ih]
    rfl
  | passed c rest ih => simp [lines, ih]
  | leaf c a rest ih =>
    have hnone : ownMarks d (if a.status = .complete then
        [⟨d, .again p a (at_ a.key)⟩]
        else skipLines p (enrichCall c a) a.status d) = [] := by
      split
      · simp [ownMarks, Mark.isReturn]
      · simp
    simp [lines, ih, hnone]
  | failed c a rest ih => simp [lines, ih]
  | entered c x inside rest ihI ih =>
    have hinside : ownMarks d (inside.lines at_ (expanded x inside) (d + 1)
        b) = [] := ownMarks_deeper fun l hl =>
      (depth_lines at_ inside (expanded x inside) (d + 1) b l hl).1
    have hdeeper : ∀ (m : Mark) (ls : List Line),
        ownMarks d (⟨d + 1, m⟩ :: ls) = ownMarks d ls := by
      intro m ls
      simp [ownMarks]
    have hback : ∀ ls : List Line, ownMarks d
        (⟨d, .back p (expanded x inside)⟩ :: ls) = ownMarks d ls := by
      intro ls
      simp [ownMarks, Mark.isReturn]
    simp only [lines, ownMarks_append, ownMarks_announceLines, hdeeper,
      hback, hinside, ih, calls_entered, blocks_entered, List.flatMap_cons,
      List.nil_append, List.append_assoc]

end Tour

/-- A complete analysis is registered under the key. -/
def completes (r : Registry) (key : MethodKey) : Bool :=
  (r.get? key).any (·.status = .complete)

theorem completes_iff {r : Registry} {key : MethodKey} {a : Analysis}
    (h : r.get? key = some a) :
    completes r key = true ↔ a.status = .complete := by
  simp [completes, h]

section

variable {t : Tracer σ} {levels : Nat} {depth : Int} {cs : List CallSite}
  {bs : List Block} {s s' : State σ} {T : Tour}

/-- Methods are nested no deeper than there are levels. -/
theorem Toured.height_le (h : Toured t levels depth cs bs s T s') :
    T.height ≤ levels := by
  induction h with
  | done => exact Nat.zero_le _
  | block _ ih | passed _ _ ih | leaf _ _ _ _ ih => exact ih
  | failed _ _ _ _ _ _ _ ih => exact ih
  | entered _ _ _ _ _ _ _ _ ihI ih =>
    exact Nat.max_le.2 ⟨Nat.succ_le_succ ihI, ih⟩

/-- The complete methods are started in the order in which they were
entered, each at the depth at which it was. -/
theorem Toured.startsIn_lines (h : Toured t levels depth cs bs s T s')
    {r : Registry} (hr : ∀ a ∈ T.registered, r.get? a.key = some a)
    (at_ : MethodKey → Nat) (p : Analysis) (d : Nat) (b : Block) :
    startsIn (T.lines at_ p d b) =
      (T.starts d).filter fun e => completes r e.1 := by
  induction h generalizing p d b with
  | done => rfl
  | block _ ih => exact ih hr p d _
  | passed _ _ ih =>
    rw [Tour.lines, startsIn_append, startsIn_announceLines]
    exact ih hr p d b
  | @leaf _ _ c _ _ _ _ _ a _ _ _ _ ih =>
    have hnone : startsIn (if a.status = .complete then
        [⟨d, .again p a (at_ a.key)⟩]
        else skipLines p (enrichCall c a) a.status d) = [] := by
      split <;> rfl
    rw [Tour.lines, startsIn_append, startsIn_append,
      startsIn_announceLines, hnone]
    exact ih hr p d b
  | @failed _ _ c _ _ _ _ _ T a _ _ _ _ _ _ _ ha _ ih =>
    have hget := hr a (List.mem_cons_self ..)
    have hnot : completes r c.key = false := by
      rw [← ha.key, Bool.eq_false_iff, Ne, completes_iff hget]
      exact ha.status
    rw [Tour.lines, startsIn_append, startsIn_append,
      startsIn_announceLines, startsIn_skipLines, Tour.starts,
      List.filter_cons]
    simp only [hnot, Bool.false_eq_true, if_false]
    exact ih (fun a ha => hr a (List.mem_cons_of_mem _ ha)) p d b
  | @entered _ _ c _ _ _ _ _ _ I T x _ _ _ _ _ _ hx _ _ ihI ih =>
    have hkey := key_expanded hx I
    have hstatus := status_expanded hx I
    have hget : r.get? c.key = some (expanded x I) := by
      rw [← hkey]
      exact hr _ (List.mem_append_right _ (List.mem_cons_self ..))
    have hin := ihI (fun a ha => hr a (List.mem_append_left _ ha))
      (expanded x I) (d + 1) b
    have hout := ih (fun a ha => hr a (List.mem_append_right _
      (List.mem_cons_of_mem _ ha))) p d b
    have hfirst : ∀ ls : List Line,
        startsIn (⟨d + 1, .enter (expanded x I)⟩ :: ls) =
          (c.key, (d : Int) + 1) :: startsIn ls := by
      intro ls
      simp [startsIn, hstatus, hkey]
    have hlast : ∀ ls : List Line,
        startsIn (⟨d + 1, .exit (expanded x I)⟩ ::
          ⟨d, .back p (expanded x I)⟩ :: ls) = startsIn ls :=
      fun ls => rfl
    rw [Tour.lines, startsIn_append, startsIn_announceLines,
      List.nil_append, hfirst, startsIn_append, hlast, hin, hout,
      Tour.starts, List.filter_cons, List.filter_append]
    simp only [(completes_iff hget).2 hstatus, if_true]
    rfl

/-- Every complete analysis that is registered on the way is traced in
full, at the depth at which its method was entered. -/
theorem Toured.tracedInFull (h : Toured t levels depth cs bs s T s')
    (at_ : MethodKey → Nat) (p : Analysis) (d : Nat) (b : Block) :
    ∀ a ∈ T.registered, a.status = .complete →
      ∃ n : Nat, (a.key, (n : Int)) ∈ T.starts d ∧
        TracedInFull (T.lines at_ p d b) a n := by
  -- what is traced in a part is traced in the whole
  have hpart : ∀ {lines all : List Line}
      {starts every : List (MethodKey × Int)} {a : Analysis}
      (before after : List Line), all = before ++ (lines ++ after) →
      starts ⊆ every →
      (∃ n : Nat, (a.key, (n : Int)) ∈ starts ∧ TracedInFull lines a n) →
      ∃ n : Nat, (a.key, (n : Int)) ∈ every ∧ TracedInFull all a n := by
    rintro lines all starts every a before after rfl hsub ⟨n, hn, hfull⟩
    exact ⟨n, hsub hn, hfull.within before after⟩
  induction h generalizing p d b with
  | done => exact fun a ha => absurd ha List.not_mem_nil
  | @block _ _ b' _ _ _ T _ ih =>
    intro a ha hs
    have hih := ih p d (enrichBlock b' T.calls T.notes) a ha hs
    exact hpart [⟨d, .block p (enrichBlock b' T.calls T.notes)⟩] []
      (by rw [Tour.lines, List.append_nil]; rfl) (List.Subset.refl _) hih
  | @passed _ _ c _ _ _ _ _ _ _ ih =>
    intro a ha hs
    exact hpart (announceLines p b c d) [] (by rw [Tour.lines]; simp)
      (List.Subset.refl _) (ih p d b a ha hs)
  | leaf _ _ _ _ ih =>
    intro a ha hs
    exact hpart _ [] (by rw [Tour.lines, List.append_nil])
      (List.Subset.refl _) (ih p d b a ha hs)
  | @failed _ _ c _ _ _ _ _ T a' _ _ _ _ _ _ _ ha' _ ih =>
    intro a ha hs
    rcases List.mem_cons.1 ha with rfl | ha
    · exact absurd hs ha'.status
    · exact hpart _ [] (by rw [Tour.lines, List.append_nil])
        (List.subset_cons_self ..) (ih p d b a ha hs)
  | @entered _ _ c _ _ _ _ _ _ I T x _ _ _ _ _ _ hx hI _ ihI ih =>
    intro a ha hs
    have hkey := key_expanded hx I
    have hfront : announceLines p b (enrichCall c (expanded x I)) d ++
        [⟨d + 1, .enter (expanded x I)⟩] ++
        (I.lines at_ (expanded x I) (d + 1) b ++
          ⟨d + 1, .exit (expanded x I)⟩ :: ⟨d, .back p (expanded x I)⟩ ::
            T.lines at_ p d b) =
        (Tour.entered c x I T).lines at_ p d b := by
      rw [Tour.lines, List.append_assoc]
      rfl
    have hbehind : announceLines p b (enrichCall c (expanded x I)) d ++
        ⟨d + 1, .enter (expanded x I)⟩ ::
          (I.lines at_ (expanded x I) (d + 1) b ++
            [⟨d + 1, .exit (expanded x I)⟩, ⟨d, .back p (expanded x I)⟩]) ++
        (T.lines at_ p d b ++ []) =
        (Tour.entered c x I T).lines at_ p d b := by
      rw [Tour.lines, List.append_nil, List.append_assoc, List.cons_append,
        List.append_assoc]
      rfl
    rcases List.mem_append.1 ha with ha | ha
    · refine hpart _ _ hfront.symm ?_ (ihI (expanded x I) (d + 1) b a ha hs)
      exact List.subset_cons_of_subset _ (List.subset_append_left ..)
    rcases List.mem_cons.1 ha with rfl | ha
    · refine ⟨d + 1, ?_, announceLines p b (enrichCall c (expanded x I)) d,
        I.lines at_ (expanded x I) (d + 1) b, ⟨d, .back p (expanded x I)⟩ ::
          T.lines at_ p d b, rfl, fun l hl =>
        (Tour.depth_lines at_ I (expanded x I) (d + 1) b l hl).1, ?_⟩
      · rw [hkey]
        exact List.mem_cons_self ..
      · rw [Tour.ownMarks_lines, hI.calls_nil]
        rfl
    · refine hpart _ _ hbehind.symm ?_ (ih p d b a ha hs)
      exact List.subset_cons_of_subset _ (List.subset_append_right ..)

/-- What is skipped is what the calls say was not expanded. -/
theorem Toured.skips_lines (h : Toured t levels depth cs bs s T s')
    (hbare : ∀ c ∈ cs ++ bs.flatMap (·.calls), c.Bare) {status : Status}
    (hs : status ≠ .complete) (at_ : MethodKey → Nat) (p : Analysis)
    (d : Nat) (b : Block) :
    skips status (T.lines at_ p d b) =
      (T.made ++ T.registered.flatMap Analysis.calls).countP
        (·.innerStatus = some status) := by
  -- a call that was answered counts as one of the status of its answer
  have hanswered : ∀ (c : CallSite) (a : Analysis) (calls : List CallSite),
      (enrichCall c a :: calls).countP (·.innerStatus = some status) =
        (if a.status = status then 1 else 0) +
          calls.countP (·.innerStatus = some status) := by
    intro c a calls
    rw [List.countP_cons, Tour.innerStatus_enrichCall, Nat.add_comm]
    simp
  induction h generalizing p d b with
  | done => rfl
  | block _ ih =>
    rw [Tour.made_block]
    exact ih hbare p d _
  | @passed _ _ c _ _ _ _ T _ _ ih =>
    have hc : c.innerStatus = none := (hbare c (List.mem_cons_self ..)).1
    rw [Tour.lines, skips_append, skips_announceLines, Tour.made_passed,
      List.cons_append, List.countP_cons_of_neg (by simp [hc]),
      Nat.zero_add]
    exact ih (fun c hc => hbare c (List.mem_cons_of_mem _ hc)) p d b
  | @leaf _ _ c _ _ _ _ T a _ _ _ _ ih =>
    have hline : skips status (if a.status = .complete then
        [⟨d, .again p a (at_ a.key)⟩]
        else skipLines p (enrichCall c a) a.status d) =
          if a.status = status then 1 else 0 := by
      by_cases ha : a.status = .complete
      · rw [if_pos ha, if_neg fun h => hs (h.symm.trans ha)]
        rfl
      · rw [if_neg ha, skips_skipLines]
    rw [Tour.lines, skips_append, skips_append, skips_announceLines, hline,
      Tour.made_leaf, List.cons_append, hanswered, Nat.zero_add,
      ih (fun c hc => hbare c (List.mem_cons_of_mem _ hc)) p d b]
    rfl
  | @failed _ _ c _ _ _ _ _ T a _ _ _ _ _ _ _ ha _ ih =>
    rw [Tour.lines, skips_append, skips_append, skips_announceLines,
      skips_skipLines, Tour.made_failed, List.cons_append, hanswered,
      Nat.zero_add, Tour.registered, List.flatMap_cons, ha.calls,
      List.nil_append,
      ih (fun c hc => hbare c (List.mem_cons_of_mem _ hc)) p d b]
  | @entered _ _ c _ _ _ _ _ _ I T x _ _ _ _ _ _ hx hI _ ihI ih =>
    have hstatus := status_expanded hx I
    have hline : ∀ (m : Mark) (n : Nat) (ls : List Line),
        (∀ c s, m ≠ .skip c s) → skips status (⟨n, m⟩ :: ls) =
          skips status ls := by
      intro m n ls hm
      cases m <;> first | rfl | exact absurd rfl (hm _ _)
    rw [Tour.lines, skips_append, skips_announceLines, hline _ _ _ (by simp),
      skips_append, hline _ _ _ (by simp), hline _ _ _ (by simp),
      Tour.made_entered, List.cons_append, hanswered,
      if_neg fun h => hs (h.symm.trans hstatus), Tour.registered,
      List.flatMap_append, List.flatMap_cons, hI.calls_expanded,
      ihI hx.calls (expanded x I) (d + 1) b,
      ih (fun c hc => hbare c (List.mem_cons_of_mem _ hc)) p d b]
    simp only [List.countP_append]
    omega

-- ====================================================== what is entered

/-- What may be entered later might have been before. -/
theorem Enterable.of_later {s s' : Session} {key : MethodKey}
    (h : Enterable s' key) (hlimits : s'.limits = s.limits)
    (hvisited : ∀ k ∈ s.visited, k ∈ s'.visited)
    (hanalyzed : s.analyzed ≤ s'.analyzed) : Enterable s key where
  fresh hk := h.fresh (hvisited key hk)
  room := by
    have := h.room
    rw [hlimits] at this
    omega
  nameable := h.nameable

theorem Moves.enterable {n : Nat} {c : CallSite} {s₁ : State σ}
    (hm : Moves t n (t.opened (frameOf c depth) s) s₁) {key : MethodKey}
    (h : Enterable s₁.session key) : Enterable s.session key := by
  refine h.of_later hm.limits ?_ ?_
  · rw [hm.visited]
    exact fun k hk => List.mem_cons_of_mem _ hk
  · rw [hm.analyzed, Tracer.opened_analyzed]
    exact Nat.le_succ _

theorem enterable_of_closed {f : Frame} {a : Analysis} {told : Bool}
    {key : MethodKey} (h : Enterable (t.closed f a told s).session key) :
    Enterable s.session key := by
  refine h.of_later (Tracer.closed_limits ..) ?_ ?_
  · rw [Tracer.closed_visited]
    exact fun k hk => hk
  · rw [Tracer.closed_analyzed]

/-- What may be entered in the end might have been entered all along. -/
theorem Toured.enterable (h : Toured t levels depth cs bs s T s')
    {key : MethodKey} (hkey : Enterable s'.session key) :
    Enterable s.session key := by
  induction h with
  | done => exact hkey
  | block _ ih | passed _ _ ih | leaf _ _ _ _ ih => exact ih hkey
  | failed _ _ _ hm _ _ _ ih =>
    exact hm.enterable (enterable_of_closed (ih hkey))
  | entered _ _ _ hm _ _ _ _ ihI ih =>
    exact hm.enterable (ihI (enterable_of_closed (ih hkey)))

/-- The method is not entered from here on: there is no level left, the run
is cancelled, or it must not be entered. -/
def Barred (levels : Nat) (s : State σ) (key : MethodKey) : Prop :=
  levels = 0 ∨ s.session.cancelled = true ∨ ¬Enterable s.session key

theorem Unentered.barred {key : MethodKey} {a : Analysis}
    (h : Unentered levels s key a) : Barred levels s key := by
  cases levels with
  | zero => exact .inl rfl
  | succ levels =>
    refine .inr (.inr fun hkey => ?_)
    rw [Unentered, Tracer.known?_eq_none.2 hkey] at h
    exact absurd h (by simp)

/-- What is barred is not entered on the tour. -/
theorem Toured.barred (h : Toured t levels depth cs bs s T s')
    (hdepth : 0 ≤ depth) {key : MethodKey} (hkey : Barred levels s key) :
    key ∉ T.entries := by
  -- below the outermost level a run that enters a method is not cancelled
  have hbar : ∀ {levels : Nat} {depth : Int} {s : State σ} {c : CallSite},
      0 ≤ depth → Live depth s → Enterable s.session c.key →
      Barred (levels + 1) s key → ¬Enterable s.session key ∧ key ≠ c.key := by
    intro levels depth s c hdepth hlive hnew hkey
    rcases hkey with h | h | h
    · exact absurd h (by omega)
    · rcases hlive with hlive | hlive
      · omega
      · rw [hlive] at h
        exact absurd h (by simp)
    · exact ⟨h, fun heq => h (heq ▸ hnew)⟩
  induction h with
  | done => exact List.not_mem_nil
  | block _ ih | passed _ _ ih | leaf _ _ _ _ ih => exact ih hdepth hkey
  | failed hc hlive hnew hm hn ha _ ih =>
    obtain ⟨hnot, hne⟩ := hbar hdepth hlive hnew hkey
    refine List.not_mem_cons_of_ne_of_not_mem hne
      (ih hdepth (.inr (.inr fun h => ?_)))
    exact hnot (hm.enterable (enterable_of_closed h))
  | entered hc hlive hnew hm hn hb hI _ ihI ih =>
    obtain ⟨hnot, hne⟩ := hbar hdepth hlive hnew hkey
    refine List.not_mem_cons_of_ne_of_not_mem hne fun hmem => ?_
    rcases List.mem_append.1 hmem with hmem | hmem
    · exact ihI (by omega) (.inr (.inr fun h => hnot (hm.enterable h))) hmem
    · refine ih hdepth (.inr (.inr fun h => ?_)) hmem
      exact hnot (hm.enterable (hI.enterable (enterable_of_closed h)))

/-- Every method that is started in the lines was entered on the way. -/
theorem Toured.entered_of_enter (h : Toured t levels depth cs bs s T s')
    (at_ : MethodKey → Nat) (p : Analysis) (d : Nat) (b : Block) {n : Nat}
    {a : Analysis} (hl : (⟨n, .enter a⟩ : Line) ∈ T.lines at_ p d b) :
    a.key ∈ T.entries := by
  induction h generalizing p d b with
  | done => exact absurd hl List.not_mem_nil
  | block _ ih =>
    exact ih p d _ (List.mem_of_ne_of_mem (by simp) hl)
  | passed _ _ ih =>
    exact ih p d b ((List.mem_append.1 hl).resolve_left
      (not_enter_announceLines n a))
  | leaf _ _ _ _ ih =>
    refine ih p d b ((List.mem_append.1 hl).resolve_left fun hl => ?_)
    rcases List.mem_append.1 hl with hl | hl
    · exact not_enter_announceLines n a hl
    · split at hl
      · simp at hl
      · exact not_enter_skipLines n a hl
  | failed _ _ _ _ _ _ _ ih =>
    refine List.mem_cons_of_mem _
      (ih p d b ((List.mem_append.1 hl).resolve_left fun hl => ?_))
    rcases List.mem_append.1 hl with hl | hl
    · exact not_enter_announceLines n a hl
    · exact not_enter_skipLines n a hl
  | @entered _ _ c _ _ _ _ _ _ I T x _ _ _ _ _ _ hx _ _ ihI ih =>
    have hl := (List.mem_append.1 hl).resolve_left
      (not_enter_announceLines n a)
    rcases List.mem_cons.1 hl with hl | hl
    · obtain ⟨-, hmark⟩ := Line.mk.inj hl
      obtain rfl := Mark.enter.inj hmark
      exact List.mem_cons.2 (.inl (key_expanded hx I))
    refine List.mem_cons_of_mem _ ?_
    rcases List.mem_append.1 hl with hl | hl
    · exact List.mem_append_left _ (ihI (expanded x I) (d + 1) b hl)
    · exact List.mem_append_right _ (ih p d b (by simpa using hl))

/-- Every call in the lines is made by the method under way, or by one that
was entered on the way. -/
theorem Toured.caller_of_call (h : Toured t levels depth cs bs s T s')
    (at_ : MethodKey → Nat) (p : Analysis) (d : Nat) (b : Block) {l : Line}
    (hl : l ∈ T.lines at_ p d b) {p' : Analysis} {b' : Block}
    {c' : CallSite} (hmark : l.mark = .call p' b' c') :
    p'.key ∈ p.key :: T.entries := by
  -- the call is made here, or in the rest of the method
  have hrest : ∀ {p : Analysis} {b : Block} {d : Nat} {c : CallSite}
      {ls : List Line} {keys : List MethodKey},
      l ∈ announceLines p b c d ++ ls →
      (l ∈ ls → p'.key ∈ p.key :: keys) → p'.key ∈ p.key :: keys := by
    intro p b d c ls keys hl hls
    rcases List.mem_append.1 hl with hl | hl
    · rw [(call_of_mem_announceLines hl hmark).1]
      exact List.mem_cons_self ..
    · exact hls hl
  have hlater : ∀ {p : Analysis} {keys keys' : List MethodKey},
      keys ⊆ keys' → p'.key ∈ p.key :: keys → p'.key ∈ p.key :: keys' :=
    fun hsub h => List.cons_subset_cons _ hsub h
  induction h generalizing p d b with
  | done => exact absurd hl List.not_mem_nil
  | block _ ih =>
    refine ih p d _ (List.mem_of_ne_of_mem ?_ hl)
    rintro rfl
    exact absurd hmark (by simp)
  | passed _ _ ih => exact hrest hl fun hl => ih p d b hl
  | leaf _ _ _ _ ih =>
    rw [Tour.lines, List.append_assoc] at hl
    refine hrest hl fun hl => ih p d b ?_
    refine (List.mem_append.1 hl).resolve_left fun hl => ?_
    split at hl
    · rw [List.mem_singleton.1 hl] at hmark
      exact absurd hmark (by simp)
    · exact not_call_of_mem_skipLines hl hmark
  | failed _ _ _ _ _ _ _ ih =>
    rw [Tour.lines, List.append_assoc] at hl
    refine hrest hl fun hl => hlater (List.subset_cons_self ..) (ih p d b ?_)
    exact (List.mem_append.1 hl).resolve_left fun hl =>
      not_call_of_mem_skipLines hl hmark
  | @entered _ _ c _ _ _ _ _ _ I T x _ _ _ _ _ _ hx _ _ ihI ih =>
    have hother : ∀ {n : Nat} {m : Mark} {ls : List Line},
        (∀ q b c, m ≠ .call q b c) → l ∈ (⟨n, m⟩ : Line) :: ls → l ∈ ls := by
      intro n m ls hm hl
      refine List.mem_of_ne_of_mem ?_ hl
      rintro rfl
      exact hm _ _ _ hmark
    refine hrest hl fun hl => ?_
    rcases List.mem_append.1 (hother (by simp) hl) with hl | hl
    · have hmem := ihI (expanded x I) (d + 1) b hl
      rw [key_expanded hx I] at hmem
      refine List.mem_cons_of_mem _ (List.cons_subset_cons _ ?_ hmem)
      exact List.subset_append_left ..
    · refine hlater (List.subset_cons_of_subset _
        (List.subset_append_right ..)) (ih p d b ?_)
      exact hother (by simp) (hother (by simp) hl)

/-- A method is started right after the call that leads to it is announced,
and the announcement holds no other call. -/
theorem enteredBy_announced {p : Analysis} {b : Block} {c : CallSite}
    {d : Nat} {a : Analysis} (hinto : c.decision = .stepInto)
    (hkey : a.key = c.key) (more : List (MethodKey × Int)) :
    EnteredBy ((p.key, (d : Int)) :: (c.key, (d : Int) + 1) :: more)
      (announceLines p b (enrichCall c a) d) a (d + 1) := by
  rw [announceLines]
  refine ⟨_, p, b, enrichCall c a, d, rfl, rfl, ?_, ?_, ?_, ?_⟩
  · rw [decision_enrichCall, hinto]
  · rw [key_enrichCall, hkey]
  · rw [hkey]
    exact ⟨[], [], _, rfl, by simp⟩
  · intro l hl p' b' c' hmark
    obtain ⟨text, -, rfl⟩ := List.mem_map.1 hl
    exact absurd hmark (by simp)

/-- The call that is announced is the one that is made. -/
theorem key_of_mem_announceLines {p : Analysis} {b : Block} {c : CallSite}
    {d : Nat} {a : Analysis} {l : Line}
    (hl : l ∈ announceLines p b (enrichCall c a) d) {p' : Analysis}
    {b' : Block} {c' : CallSite} (hmark : l.mark = .call p' b' c') :
    c'.key = c.key := by
  rw [(call_of_mem_announceLines hl hmark).2, key_enrichCall]

section

variable {c : CallSite} {x : Analysis} {I T : Tour} {s₁ s₂ s' : State σ}
  {p a : Analysis} {b : Block} {d n : Nat} {before after : List Line}

/-- What is started inside a method that is entered is started there as it
is from that method alone. -/
theorem Toured.enteredBy_inside (at_ : MethodKey → Nat)
    (hI : Toured t levels depth [] x.blocks s₁ I s₂)
    (hkey : (expanded x I).key = c.key) (hc : c.key ∉ I.entries)
    (hlines : I.lines at_ (expanded x I) (d + 1) b =
      before ++ ⟨n, .enter a⟩ :: after)
    (hfrom : EnteredBy (((expanded x I).key, (d + 1 : Nat)) ::
      I.starts (d + 1 : Nat)) before a n) (T : Tour) :
    EnteredBy ((p.key, (d : Int)) :: (c.key, (d : Int) + 1) ::
        (I.starts ((d : Int) + 1) ++ T.starts d))
      (announceLines p b (enrichCall c (expanded x I)) d ++
        ⟨d + 1, .enter (expanded x I)⟩ :: before) a n := by
  have hmem : a.key ∈ I.entries := hI.entered_of_enter at_ (expanded x I)
    (d + 1) b (n := n) (by rw [hlines]; simp)
  have hafter := (hfrom.after
    (announceLines p b (enrichCall c (expanded x I)) d ++
      [⟨d + 1, .enter (expanded x I)⟩]) ?_).mono fun q m hq =>
        hq.within [(p.key, (d : Int))] (T.starts d)
  · rw [hkey] at hafter
    simpa using hafter
  intro l hl p' b' c' hmark _ _ hsame
  rcases List.mem_append.1 hl with hl | hl
  · refine hc ?_
    rw [← key_of_mem_announceLines hl hmark, hsame]
    exact hmem
  · rw [List.mem_singleton.1 hl] at hmark
    exact absurd hmark (by simp)

/-- What is started after a method was left is started as if that method
had not been entered: no call inside it has the same caller. -/
theorem Toured.enteredBy_behind (at_ : MethodKey → Nat)
    (hI : Toured t levels depth [] x.blocks s₁ I s₂)
    (hkey : (expanded x I).key = c.key)
    (hdistinct : (p.key :: c.key :: (I.entries ++ T.entries)).Nodup)
    (hmem : a.key ∈ T.entries)
    (hfrom : EnteredBy ((p.key, (d : Int)) :: T.starts d) before a n) :
    EnteredBy ((p.key, (d : Int)) :: (c.key, (d : Int) + 1) ::
        (I.starts ((d : Int) + 1) ++ T.starts d))
      (announceLines p b (enrichCall c (expanded x I)) d ++
        ⟨d + 1, .enter (expanded x I)⟩ ::
          (I.lines at_ (expanded x I) (d + 1) b ++
            (⟨d + 1, .exit (expanded x I)⟩ ::
              ⟨d, .back p (expanded x I)⟩ :: before))) a n := by
  obtain ⟨hp, hdistinct⟩ := List.nodup_cons.1 hdistinct
  obtain ⟨hc, hdistinct⟩ := List.nodup_cons.1 hdistinct
  have hdisjoint := (List.nodup_append.1 hdistinct).2.2
  have hnested : ∀ q m,
      Nested ((p.key, (d : Int)) :: T.starts d) q m a.key →
      Nested ((p.key, (d : Int)) ::
        ((c.key, (d : Int) + 1) :: I.starts ((d : Int) + 1) ++
          T.starts d)) q m a.key := fun q m hq =>
    hq.insert (List.forall_mem_cons.2 ⟨Int.lt_succ _, fun e he => by
      have := I.starts_deeper _ e he
      omega⟩)
  have hafter := (hfrom.after
    (announceLines p b (enrichCall c (expanded x I)) d ++
      ⟨d + 1, .enter (expanded x I)⟩ ::
        (I.lines at_ (expanded x I) (d + 1) b ++
          [⟨d + 1, .exit (expanded x I)⟩,
            ⟨d, .back p (expanded x I)⟩])) ?_).mono hnested
  · simpa using hafter
  intro l hl p' b' c' hmark hp' _ hsame
  rw [List.map_cons, Tour.map_fst_starts] at hp'
  rcases List.mem_append.1 hl with hl | hl
  · refine hc (List.mem_append_right _ ?_)
    rw [← key_of_mem_announceLines hl hmark, hsame]
    exact hmem
  rcases List.mem_cons.1 hl with rfl | hl
  · exact absurd hmark (by simp)
  rcases List.mem_append.1 hl with hl | hl
  · -- a call inside is made by what was entered inside
    have hinside := hI.caller_of_call at_ (expanded x I) (d + 1) b hl hmark
    rw [hkey] at hinside
    rcases List.mem_cons.1 hp' with hp' | hp'
    · rw [hp'] at hinside
      exact hp (List.cons_subset_cons _ (List.subset_append_left ..) hinside)
    · rcases List.mem_cons.1 hinside with hinside | hinside
      · exact hc (List.mem_append_right _ (hinside ▸ hp'))
      · exact hdisjoint _ hinside _ hp' rfl
  · simp only [List.mem_cons, List.not_mem_nil, or_false] at hl
    rcases hl with rfl | rfl <;> exact absurd hmark (by simp)

end

/-- Every method that is started in the lines is started right after a
call of it, the first in its caller that is stepped into. -/
theorem Toured.enteredBy (h : Toured t levels depth cs bs s T s')
    (hdepth : 0 ≤ depth) (at_ : MethodKey → Nat) (p : Analysis) (d : Nat)
    (b : Block) (hdistinct : (p.key :: T.entries).Nodup)
    {before after : List Line} {a : Analysis} {n : Nat}
    (heq : T.lines at_ p d b = before ++ ⟨n, .enter a⟩ :: after) :
    EnteredBy ((p.key, (d : Int)) :: T.starts d) before a n := by
  induction h generalizing p d b before after with
  | done => exact absurd heq (by simp [Tour.lines])
  | @block _ _ b' _ _ _ T _ ih =>
    have hlines : [⟨d, .block p (enrichBlock b' T.calls T.notes)⟩] ++
        T.lines at_ p d (enrichBlock b' T.calls T.notes) =
        before ++ ⟨n, .enter a⟩ :: after := heq
    obtain ⟨before, rfl, hrest⟩ := exists_of_append_eq hlines (by simp)
    refine (ih hdepth p d _ hdistinct hrest).after _
      fun l hl p' b' c' hmark => ?_
    rw [List.mem_singleton.1 hl] at hmark
    exact absurd hmark (by simp)
  | @passed _ _ c _ _ _ _ T hpass hT ih =>
    obtain ⟨before, rfl, hrest⟩ :=
      exists_of_append_eq heq (not_enter_announceLines n a)
    refine (ih hdepth p d b hdistinct hrest).after _
      fun l hl p' b' c' hmark _ hinto _ => ?_
    rw [(call_of_mem_announceLines hl hmark).2] at hinto
    have hcancelled := hpass.resolve_left fun h => h hinto
    refine hT.barred hdepth (.inr (.inl hcancelled))
      (hT.entered_of_enter at_ p d b (a := a) (n := n) ?_)
    rw [hrest]
    simp
  | @leaf _ _ c _ _ _ _ T a' _ _ hleaf hT ih =>
    obtain ⟨before, rfl, hrest⟩ := exists_of_append_eq heq (by
      refine List.not_mem_append (not_enter_announceLines n a) ?_
      split
      · simp
      · exact not_enter_skipLines n a)
    refine (ih hdepth p d b hdistinct hrest).after _
      fun l hl p' b' c' hmark _ _ hkey => ?_
    have hcall : c'.key = c.key := by
      rcases List.mem_append.1 hl with hl | hl
      · exact key_of_mem_announceLines hl hmark
      · split at hl
        · rw [List.mem_singleton.1 hl] at hmark
          exact absurd hmark (by simp)
        · exact absurd hmark (not_call_of_mem_skipLines hl)
    refine hT.barred hdepth hleaf.barred ?_
    rw [← hcall, hkey]
    refine hT.entered_of_enter at_ p d b (n := n) ?_
    rw [hrest]
    simp
  | @failed _ _ c _ _ _ _ _ T a' _ _ _ _ _ _ _ ha' hT ih =>
    rw [Tour.entries, List.nodup_cons, List.nodup_cons] at hdistinct
    have hinner := List.nodup_cons.2 ⟨fun h =>
      hdistinct.1 (List.mem_cons_of_mem _ h), hdistinct.2.2⟩
    obtain ⟨before, rfl, hrest⟩ := exists_of_append_eq heq
      (List.not_mem_append (not_enter_announceLines n a)
        (not_enter_skipLines n a))
    have hstarts : ∀ q m, Nested ((p.key, (d : Int)) :: T.starts d) q m a.key →
        Nested ((p.key, (d : Int)) ::
          ([(c.key, (d : Int) + 1)] ++ T.starts d)) q m a.key :=
      fun q m hq => hq.insert fun e he => by
        rw [List.mem_singleton.1 he]
        exact Int.lt_succ _
    refine ((ih hdepth p d b hinner hrest).after _
      fun l hl p' b' c' hmark _ _ hkey => ?_).mono hstarts
    have hcall : c'.key = c.key := by
      rcases List.mem_append.1 hl with hl | hl
      · exact key_of_mem_announceLines hl hmark
      · exact absurd hmark (not_call_of_mem_skipLines hl)
    refine hdistinct.2.1 ?_
    rw [← hcall, hkey]
    refine hT.entered_of_enter at_ p d b (n := n) ?_
    rw [hrest]
    simp
  | @entered _ _ c _ _ _ _ _ _ I T x _ hinto _ _ _ _ hx hI hT ihI ih =>
    have hkey := key_expanded hx I
    have hall : (p.key :: c.key :: (I.entries ++ T.entries)).Nodup := hdistinct
    rw [Tour.entries, List.nodup_cons, List.nodup_cons] at hdistinct
    obtain ⟨hp, hc, hinner⟩ := hdistinct
    obtain ⟨hinnerI, hinnerT, -⟩ := List.nodup_append.1 hinner
    obtain ⟨before, rfl, hrest⟩ :=
      exists_of_append_eq heq (not_enter_announceLines n a)
    rw [Tour.starts]
    cases before with
    | nil =>
      obtain ⟨hline, -⟩ := List.cons.inj hrest
      obtain ⟨rfl, hmark⟩ := Line.mk.inj hline
      obtain rfl := Mark.enter.inj hmark
      rw [List.append_nil]
      exact enteredBy_announced hinto hkey _
    | cons first before =>
      obtain ⟨rfl, hlines⟩ := List.cons.inj hrest
      rcases List.append_eq_append_iff.1 hlines with
        ⟨behind, rfl, hafter⟩ | ⟨behind, hinside, hafter⟩
      · -- it is entered after the method that is entered here is left
        have hlines : [⟨d + 1, .exit (expanded x I)⟩,
            ⟨d, .back p (expanded x I)⟩] ++ T.lines at_ p d b =
            behind ++ ⟨n, .enter a⟩ :: after := hafter
        obtain ⟨last, rfl, hlast⟩ := exists_of_append_eq hlines (by simp)
        have hmem : a.key ∈ T.entries :=
          hT.entered_of_enter at_ p d b (n := n) (by rw [hlast]; simp)
        have hfrom := ih hdepth p d b (List.nodup_cons.2
          ⟨fun h => hp (by simp [h]), hinnerT⟩) hlast
        exact hI.enteredBy_behind at_ hkey hall hmem hfrom
      · -- it is entered inside the method that is entered here
        cases behind with
        | nil => exact absurd (List.cons.inj hafter).1 (by simp)
        | cons first behind =>
          obtain ⟨rfl, -⟩ := List.cons.inj hafter
          have hcI : c.key ∉ I.entries := fun h =>
            hc (List.mem_append_left _ h)
          have hfrom := ihI (by omega) (expanded x I) (d + 1) b
            (hkey ▸ List.nodup_cons.2 ⟨hcI, hinnerI⟩) hinside
          exact hI.enteredBy_inside at_ hkey hcI hinside hfrom T

end

-- ============================================================= the root

/-- The walkthrough of a method with one block and no calls. -/
theorem outline_single (r : Registry) {a : Analysis} {b : Block}
    (ha : a.blocks = [b]) (hb : b.calls = []) :
    outline r a = [⟨0, .enter a⟩, ⟨0, .block a b⟩, ⟨0, .exit a⟩] := by
  simp [outline, Emission.traceMethod, ha, Emission.traceBlock, hb]

/-- The walkthrough of a root that was described goes the way of its
tour. -/
theorem Toured.outline_eq {t : Tracer σ} {levels : Nat} {x : Analysis}
    {key : MethodKey} {s₁ s₂ : State σ} {I : Tour}
    (h : Toured t levels 0 [] x.blocks s₁ I s₂) (hx : x.Bare key)
    (hs : Resting levels 0 s₁.session) (hregistry : s₁.session.registry = [])
    (hvisited : s₁.session.visited = [key]) {F : Session}
    (hF : s₂.session.Ends F) (hheight : I.height ≤ F.registry.length)
    (b : Block) :
    ∃ at_, outline F.registry (expanded x I) =
        ⟨0, .enter (expanded x I)⟩ :: (I.lines at_ (expanded x I) 0 b ++
          [⟨0, .exit (expanded x I)⟩]) ∧
      References (outline F.registry (expanded x I)) := by
  have hnone : Linked { s₁.session with visited := [] } {} := by
    refine ⟨fun key n hn => absurd hn (by simp [Emission.startOf?]),
      fun a ha => ?_, references_nil⟩
    rw [hregistry] at ha
    exact absurd ha List.not_mem_nil
  have hfirst : s₁.session.visited = [(expanded x I).key] := by
    rw [hvisited, key_expanded hx I]
  have henter := hnone.enter List.not_mem_nil hfirst rfl
    (by rw [hregistry]; exact fun k hk => absurd hk List.not_mem_nil) 0
  have hwalk := h.emitted hs hF hx.calls F.registry.length (expanded x I) 0 b
    _ hheight henter.linked
  have hexit := hwalk.linked.add 0 (m := .exit (expanded x I)) (by simp)
  have hall := (henter.trans hwalk).trans hexit
  have houtline : outline F.registry (expanded x I) =
      (((I.walk F.registry F.registry.length (expanded x I) 0 b
        (Emission.enter {} (expanded x I) 0)).add 0
          (.exit (expanded x I))).lines.toList) := by
    rw [outline, Tour.traceMethod_expanded _ _ _ b _ h]
  rw [houtline]
  exact ⟨_, hall.lines_noted, hexit.linked.references⟩

end CallTrace.Run
