import Pebil.Timing.FunctionTimer

/-!
# Entry and exit calls pair

A function's calls are paired on every path of an activation exactly if it is
`TimerSafe` (`paired_iff`). In a program of such functions the calls of an activation
are one `function_entry`, the calls of the activations inside it, and one
`function_exit` (`IsActivation.eq_bracket`), so no exit is unmatched and the tables of
the run time show what is open throughout (`functionTimer_iff`).
-/

namespace Pebil

open Relation (ReflTransGen)
open scoped List

/-! ## The calls of a block -/

namespace TimedFunction

variable {f : TimedFunction} {points : List TimerPoint} {b t : Nat}

theorem exitCallBlocks_nodup : f.exitCallBlocks.Nodup := by
  rw [exitCallBlocks]
  split
  · exact List.pairwise_singleton _ _
  · exact List.nodup_range.filter _

theorem filter_map_pointIn {l : List Nat} (hl : l.Nodup) (b : Nat) :
    blockCalls (l.map (f.pointIn .functionExit)) b = if b ∈ l then [.functionExit] else [] := by
  induction l with
  | nil => simp [blockCalls]
  | cons i l ih =>
    obtain ⟨hi, hl⟩ := List.nodup_cons.mp hl
    have ih := ih hl
    by_cases hib : i = b
    · subst hib
      rw [if_neg hi] at ih
      rw [List.map_cons, blockCalls, List.filter_cons_of_pos (by simp [pointIn]), List.map_cons]
      rw [blockCalls] at ih
      rw [ih, if_pos List.mem_cons_self]
      rfl
    · rw [List.map_cons, blockCalls, List.filter_cons_of_neg (by simp [pointIn, hib])]
      rw [blockCalls] at ih
      rw [ih]
      simp [Ne.symm hib]

theorem blockCalls_instrument (b : Nat) : blockCalls f.instrument b =
    (if b = f.entryBlock then [.functionEntry] else []) ++
      if b ∈ f.exitCallBlocks then [.functionExit] else [] := by
  rw [← filter_map_pointIn exitCallBlocks_nodup, instrument]
  by_cases hb : b = f.entryBlock
  · subst hb
    rw [blockCalls, List.filter_cons_of_pos (by simp [pointIn]), if_pos rfl]
    rfl
  · rw [blockCalls, List.filter_cons_of_neg (by simp [pointIn, Ne.symm hb]), if_neg hb]
    rfl

theorem blockCalls_perm (h : Arranged f.instrument points) (b : Nat) :
    blockCalls points b ~ blockCalls f.instrument b :=
  (h.perm.filter _).map _

theorem entry_mem_iff (h : Arranged f.instrument points) :
    .functionEntry ∈ blockCalls points b ↔ b = f.entryBlock := by
  rw [(blockCalls_perm h b).mem_iff, blockCalls_instrument]
  by_cases hb : b = f.entryBlock <;> by_cases he : b ∈ f.exitCallBlocks <;> simp [hb, he]

theorem exit_mem_iff (h : Arranged f.instrument points) :
    .functionExit ∈ blockCalls points b ↔ b ∈ f.exitCallBlocks := by
  rw [(blockCalls_perm h b).mem_iff, blockCalls_instrument]
  by_cases hb : b = f.entryBlock <;> by_cases he : b ∈ f.exitCallBlocks <;> simp [hb, he]

/-- A block that is not the entry block. -/
theorem blockCalls_inner (h : Arranged f.instrument points) (hb : b ≠ f.entryBlock) :
    blockCalls points b = if b ∈ f.exitCallBlocks then [.functionExit] else [] := by
  have hperm := blockCalls_perm h b
  rw [blockCalls_instrument, if_neg hb, List.nil_append] at hperm
  by_cases he : b ∈ f.exitCallBlocks
  · rw [if_pos he] at hperm ⊢
    exact List.perm_singleton.mp hperm
  · rw [if_neg he] at hperm ⊢
    exact List.perm_nil.mp hperm

/-- The entry block, where it has no exit call. -/
theorem blockCalls_entry (h : Arranged f.instrument points)
    (he : f.entryBlock ∉ f.exitCallBlocks) :
    blockCalls points f.entryBlock = [.functionEntry] := by
  have hperm := blockCalls_perm h f.entryBlock
  rw [blockCalls_instrument, if_pos rfl, if_neg he, List.append_nil] at hperm
  exact List.perm_singleton.mp hperm

/-- The entry block, where it has an exit call and the sort puts the entry first. -/
theorem blockCalls_both (h : Arranged f.instrument points) (he : f.entryBlock ∈ f.exitCallBlocks)
    (hfirst : (blockCalls points f.entryBlock).head? = some .functionEntry) :
    blockCalls points f.entryBlock = [.functionEntry, .functionExit] := by
  have hperm := blockCalls_perm h f.entryBlock
  rw [blockCalls_instrument, if_pos rfl, if_pos he] at hperm
  cases hcalls : blockCalls points f.entryBlock with
  | nil => simp [hcalls] at hfirst
  | cons c cs =>
    rw [hcalls] at hperm hfirst
    obtain rfl : c = .functionEntry := by simpa using hfirst
    have hrest := (List.perm_cons _).mp hperm
    rw [List.perm_singleton.mp hrest]

/-! ## Paired paths -/

theorem ExitsOnce.mid {calls : Nat → List TimerFunction} {pre post : List Nat}
    (h : ExitsOnce calls (pre ++ b :: t :: post)) :
    calls b = [] ∧ .functionEntry ∉ calls t := by
  induction pre with
  | nil =>
    refine ⟨h.1, ?_⟩
    have ht : ExitsOnce calls (t :: post) := h.2
    cases post with
    | nil => rw [show calls t = _ from ht]; simp
    | cons _ _ => rw [ht.1]; simp
  | cons c pre ih =>
    have hrest : ExitsOnce calls (pre ++ b :: t :: post) := by
      cases pre with
      | nil => exact h.2
      | cons _ _ => exact h.2
    exact ih hrest

/-- Two consecutive blocks of a paired path. -/
theorem Paired.mid {calls : Nat → List TimerFunction} {pre post : List Nat}
    (h : Paired calls (pre ++ b :: t :: post)) :
    .functionExit ∉ calls b ∧ .functionEntry ∉ calls t := by
  cases pre with
  | nil =>
    refine ⟨by rw [h.1]; simp, ?_⟩
    have ht : ExitsOnce calls (t :: post) := h.2
    cases post with
    | nil => rw [show calls t = _ from ht]; simp
    | cons _ _ => rw [ht.1]; simp
  | cons c pre =>
    have hrest : ExitsOnce calls (pre ++ b :: t :: post) := by
      cases pre with
      | nil => exact h.2
      | cons _ _ => exact h.2
    obtain ⟨hb, ht⟩ := ExitsOnce.mid hrest
    exact ⟨by rw [hb]; simp, ht⟩

theorem ExitsOnce.last {calls : Nat → List TimerFunction} {path : List Nat}
    (h : ExitsOnce calls path) : path.getLast? = some b → .functionExit ∈ calls b := by
  induction path with
  | nil => exact absurd h not_false
  | cons c path ih =>
    intro hlast
    cases path with
    | nil =>
      obtain rfl : c = b := by simpa using hlast
      rw [show calls c = _ from h]
      simp
    | cons d path => exact ih h.2 (by simpa using hlast)

/-- The last block of a paired path. -/
theorem Paired.last {calls : Nat → List TimerFunction} {path : List Nat}
    (h : Paired calls path) (hlast : path.getLast? = some b) : .functionExit ∈ calls b := by
  cases path with
  | nil => exact absurd h not_false
  | cons c path =>
    cases path with
    | nil =>
      obtain rfl : c = b := by simpa using hlast
      rw [show calls c = _ from h]
      simp
    | cons d path => exact ExitsOnce.last h.2 (by simpa using hlast)

theorem exists_path {b c : Nat} (h : ReflTransGen f.Edge b c) :
    ∃ path : List Nat, (b :: path).IsChain f.Edge ∧ (b :: path).getLast? = some c := by
  obtain ⟨path, hchain, hlast⟩ := List.exists_isChain_cons_of_relationReflTransGen h
  exact ⟨path, hchain, by rw [List.getLast?_eq_getLast_of_ne_nil (List.cons_ne_nil _ _), hlast]⟩

/-- A live edge lies on the path of an activation. -/
theorem LiveEdge.exists_complete (h : f.LiveEdge b t) :
    ∃ pre post, f.Complete (pre ++ b :: t :: post) := by
  obtain ⟨hreach, hedge, l, hl, hleaves⟩ := h
  obtain ⟨path, hchain, hlast⟩ := exists_path hreach
  obtain ⟨post, hpost, hend⟩ := exists_path hl
  -- the path to `b` ends with `b`
  obtain ⟨pre, hpre⟩ : ∃ pre, f.entryBlock :: path = pre ++ [b] :=
    ⟨_, (List.dropLast_append_getLast? b hlast).symm⟩
  refine ⟨pre, post, ?_, ?_, l, ?_, hleaves⟩
  · have hhead : (pre ++ [b]).head? = some f.entryBlock := by rw [← hpre]; rfl
    cases pre with
    | nil => simpa using hhead
    | cons _ _ => simpa using hhead
  · rw [hpre] at hchain
    rw [← List.singleton_append, ← List.append_assoc]
    refine hchain.append hpost fun x hx y hy => ?_
    obtain rfl : b = x := by simpa using hx
    obtain rfl : t = y := by simpa using hy
    exact hedge
  · rw [List.getLast?_append_of_ne_nil _ (List.cons_ne_nil _ _), List.getLast?_cons_cons]
    exact hend

theorem exists_complete_to (hreach : ReflTransGen f.Edge f.entryBlock b) (hb : f.Leaves b) :
    ∃ path, f.Complete path ∧ path.getLast? = some b := by
  obtain ⟨path, hchain, hlast⟩ := exists_path hreach
  exact ⟨f.entryBlock :: path, ⟨rfl, hchain, b, hlast, hb⟩, hlast⟩

/-- From a reachable block other than the entry block on, a safe function exits once. -/
theorem TimerSafe.exitsOnce (hsafe : f.TimerSafe points) (h : Arranged f.instrument points)
    {path : List Nat} (hreach : ReflTransGen f.Edge f.entryBlock b) (hb : b ≠ f.entryBlock)
    (hchain : (b :: path).IsChain f.Edge)
    (hlast : ∃ l, (b :: path).getLast? = some l ∧ f.Leaves l) :
    ExitsOnce (blockCalls points) (b :: path) := by
  induction path generalizing b with
  | nil =>
    obtain ⟨l, hl, hleaves⟩ := hlast
    obtain rfl : b = l := by simpa using hl
    show blockCalls points b = _
    rw [blockCalls_inner h hb, if_pos (hsafe.leaves_exit b hreach hleaves)]
  | cons t path ih =>
    obtain ⟨hedge, hchain⟩ := List.isChain_cons_cons.mp hchain
    rw [List.getLast?_cons_cons] at hlast
    have hlive : f.LiveEdge b t := by
      obtain ⟨l, hl, hleaves⟩ := hlast
      refine ⟨hreach, hedge, l, ?_, hleaves⟩
      refine List.relationReflTransGen_of_exists_isChain_cons path hchain ?_
      rw [List.getLast?_eq_getLast_of_ne_nil (List.cons_ne_nil _ _)] at hl
      exact Option.some.inj hl
    have ht : t ≠ f.entryBlock := fun heq => hsafe.entry_fresh b (heq ▸ hlive)
    refine ⟨?_, ih (hreach.tail hedge) ht hchain hlast⟩
    rw [blockCalls_inner h hb, if_neg (hsafe.exit_final b t hlive)]

/-- Calls are paired on every path of an activation exactly in safe functions. -/
theorem paired_iff (h : Arranged f.instrument points) :
    (∀ path, f.Complete path → Paired (blockCalls points) path) ↔ f.TimerSafe points := by
  constructor
  · intro hall
    refine ⟨fun b hlive => ?_, fun b t hlive hexit => ?_, fun b hreach hb => ?_, fun hleaves => ?_⟩
    · obtain ⟨pre, post, hpath⟩ := hlive.exists_complete
      exact (Paired.mid (hall _ hpath)).2 ((entry_mem_iff h).mpr rfl)
    · obtain ⟨pre, post, hpath⟩ := hlive.exists_complete
      exact (Paired.mid (hall _ hpath)).1 ((exit_mem_iff h).mpr hexit)
    · obtain ⟨path, hpath, hlast⟩ := exists_complete_to hreach hb
      exact (exit_mem_iff h).mp (Paired.last (hall _ hpath) hlast)
    · have hpath : f.Complete [f.entryBlock] := ⟨rfl, List.isChain_singleton _, _, rfl, hleaves⟩
      rw [show blockCalls points f.entryBlock = _ from hall _ hpath]
      rfl
  · intro hsafe path hpath
    obtain ⟨hfirst, hchain, hlast⟩ := hpath
    cases path with
    | nil => cases hfirst
    | cons b path =>
      obtain rfl : b = f.entryBlock := by simpa using hfirst
      cases path with
      | nil =>
        obtain ⟨l, hl, hleaves⟩ := hlast
        obtain rfl : f.entryBlock = l := by simpa using hl
        exact blockCalls_both h (hsafe.leaves_exit _ .refl hleaves) (hsafe.entry_first hleaves)
      | cons t path =>
        obtain ⟨hedge, hchain⟩ := List.isChain_cons_cons.mp hchain
        rw [List.getLast?_cons_cons] at hlast
        have hlive : f.LiveEdge f.entryBlock t := by
          obtain ⟨l, hl, hleaves⟩ := hlast
          refine ⟨.refl, hedge, l, ?_, hleaves⟩
          refine List.relationReflTransGen_of_exists_isChain_cons path hchain ?_
          rw [List.getLast?_eq_getLast_of_ne_nil (List.cons_ne_nil _ _)] at hl
          exact Option.some.inj hl
        have ht : t ≠ f.entryBlock := fun heq => hsafe.entry_fresh _ (heq ▸ hlive)
        exact ⟨blockCalls_entry h (hsafe.exit_final _ _ hlive),
          hsafe.exitsOnce h (.single hedge) ht hchain hlast⟩

end TimedFunction

/-! ## Activations of a program -/

section Program

variable {program : Nat → TimedFunction} {points : Nat → List TimerPoint} {depth f : Nat}
  {calls : List TaggedCall}

theorem ExitsOnce.flatMap_eq {blocks : Nat → List TimerFunction} {last : Nat}
    {steps : List (Nat × List (List TaggedCall))}
    (h : ExitsOnce blocks (steps.map (·.1) ++ [last])) :
    steps.flatMap (fun s => (blocks s.1).map (·, f) ++ s.2.flatten) ++ (blocks last).map (·, f) =
      (steps.flatMap (·.2)).flatten ++ [(.functionExit, f)] := by
  induction steps with
  | nil =>
    rw [show blocks last = _ from h]
    rfl
  | cons s steps ih =>
    have hs : blocks s.1 = [] ∧ ExitsOnce blocks (steps.map (·.1) ++ [last]) := by
      cases steps with
      | nil => exact h
      | cons _ _ => exact h
    rw [List.flatMap_cons, List.flatMap_cons, List.flatten_append, hs.1, List.append_assoc, ih hs.2]
    simp

/-- The calls of an activation are its entry, the calls of the activations inside it, and
its exit. -/
theorem IsActivation.eq_bracket
    (hpaired : ∀ path, (program f).Complete path → Paired (blockCalls (points f)) path)
    (h : IsActivation program points (depth + 1) f calls) : ∃ inner : List (List TaggedCall),
      (∀ e ∈ inner, ∃ g, IsActivation program points depth g e) ∧
      calls = (.functionEntry, f) :: (inner.flatten ++ [(.functionExit, f)]) := by
  obtain ⟨steps, last, hcomplete, hinner, rfl⟩ := h
  have hpath := hpaired _ hcomplete
  cases steps with
  | nil =>
    refine ⟨[], nofun, ?_⟩
    rw [show blockCalls (points f) last = _ from hpath]
    rfl
  | cons s steps =>
    have hs : blockCalls (points f) s.1 = [.functionEntry] ∧
        ExitsOnce (blockCalls (points f)) (steps.map (·.1) ++ [last]) := by
      cases steps with
      | nil => exact hpath
      | cons _ _ => exact hpath
    refine ⟨s.2 ++ steps.flatMap (·.2), fun e he => ?_, ?_⟩
    · rcases List.mem_append.mp he with he | he
      · exact hinner s List.mem_cons_self e he
      · obtain ⟨s', hs', he⟩ := List.mem_flatMap.mp he
        exact hinner s' (List.mem_cons_of_mem _ hs') e he
    · rw [List.flatMap_cons, hs.1, List.append_assoc, ExitsOnce.flatMap_eq hs.2,
        List.flatten_append]
      simp

/-- What the run time is told, without the times. -/
def TimerCall.tagged (c : TimerCall) : TaggedCall := (c.call, c.funcIndex)

theorem Activity.matched_append {a : Activity} {cs ds : List TimerCall} :
    a.Matched (cs ++ ds) ↔ a.Matched cs ∧ (cs.foldl Activity.step a).Matched ds := by
  induction cs generalizing a with
  | nil => exact (and_iff_right trivial).symm
  | cons c cs ih =>
    rw [List.cons_append, Activity.Matched, Activity.Matched, ih, and_assoc]
    rfl

/-- All calls match, and in the end nothing more is open than before. -/
def Settles (a : Activity) (cs : List TimerCall) : Prop :=
  a.Matched cs ∧ (cs.foldl Activity.step a).openCount = a.openCount

theorem Settles.append {a : Activity} {cs ds : List TimerCall} (hcs : Settles a cs)
    (hds : Settles (cs.foldl Activity.step a) ds) : Settles a (cs ++ ds) := by
  refine ⟨Activity.matched_append.mpr ⟨hcs.1, hds.1⟩, ?_⟩
  rw [List.foldl_append, hds.2, hcs.2]

/-- Activations one after the other. -/
theorem settles_flatten {a : Activity} {inner : List (List TaggedCall)} {cs : List TimerCall}
    (hinner : ∀ e ∈ inner, ∀ (a' : Activity) (ds : List TimerCall),
      a'.openCount = a.openCount → ds.map TimerCall.tagged = e → Settles a' ds)
    (hcs : cs.map TimerCall.tagged = inner.flatten) : Settles a cs := by
  induction inner generalizing a cs with
  | nil =>
    obtain rfl := List.map_eq_nil_iff.mp hcs
    exact ⟨trivial, rfl⟩
  | cons e inner ih =>
    obtain ⟨he, hinner⟩ := List.forall_mem_cons.mp hinner
    obtain ⟨ds, es, rfl, hds, hes⟩ := List.map_eq_append_iff.mp hcs
    have hfirst := he a ds rfl hds
    refine hfirst.append (ih (fun e' he' a' ds' ha' => hinner e' he' a' ds' (ha'.trans hfirst.2)) hes)

/-- An activation settles, from wherever the nesting it needs is left. -/
theorem IsActivation.settles
    (hpaired : ∀ f path, (program f).Complete path → Paired (blockCalls (points f)) path)
    (h : IsActivation program points depth f calls) {a : Activity} {cs : List TimerCall}
    (ha : ∀ g, a.openCount g + depth < 2 ^ 32) (hcs : cs.map TimerCall.tagged = calls) :
    Settles a cs := by
  induction depth generalizing f calls a cs with
  | zero => exact absurd h not_false
  | succ depth ih =>
    obtain ⟨inner, hinner, rfl⟩ := h.eq_bracket (hpaired f)
    obtain ⟨c, cs, rfl, hc, hcs⟩ := List.map_eq_cons_iff.mp hcs
    obtain ⟨ds, es, rfl, hds, hes⟩ := List.map_eq_append_iff.mp hcs
    obtain ⟨e, es, rfl, he, hes⟩ := List.map_eq_cons_iff.mp hes
    obtain rfl := List.map_eq_nil_iff.mp hes
    obtain ⟨call, fc, now⟩ := c
    obtain ⟨call', fe, now'⟩ := e
    obtain ⟨rfl, hfc⟩ := Prod.mk.inj hc
    obtain ⟨rfl, hfe⟩ := Prod.mk.inj he
    obtain rfl : f = fc := hfc.symm
    obtain rfl : f = fe := hfe.symm
    have henter : (a.enter f now).openCount = Function.update a.openCount f (a.openCount f + 1) := rfl
    have hroom : ∀ g, (a.enter f now).openCount g + depth < 2 ^ 32 := by
      intro g
      have hg := ha g
      rw [henter]
      by_cases hgf : g = f
      · subst hgf
        rw [Function.update_self]
        omega
      · rw [Function.update_of_ne hgf]
        omega
    -- the activations inside leave the count where it was
    have hmid : Settles (a.enter f now) ds := by
      refine settles_flatten (fun e he a' ds' ha' hds' => ?_) hds
      obtain ⟨g, hg⟩ := hinner e he
      exact ih hg (fun g => by rw [ha']; exact hroom g) hds'
    have hopen : (ds.foldl Activity.step (a.enter f now)).openCount f = a.openCount f + 1 := by
      rw [hmid.2, henter, Function.update_self]
    have hf := ha f
    refine ⟨⟨?_, ?_⟩, ?_⟩
    · show a.openCount f + 1 < 2 ^ 32
      omega
    · refine Activity.matched_append.mpr ⟨hmid.1, ?_, trivial⟩
      show 0 < (ds.foldl Activity.step (a.enter f now)).openCount f
      omega
    · rw [List.foldl_cons, List.foldl_append]
      show (Activity.leave (ds.foldl Activity.step (a.enter f now)) f now').openCount = a.openCount
      rw [Activity.leave, if_neg (by omega)]
      show Function.update _ f _ = _
      rw [hopen, hmid.2, henter, Function.update_idem, Nat.add_sub_cancel, Function.update_eq_self]

/-- **Function timers.** Calls are paired on all paths exactly of safe functions; the tables show
the activity throughout exactly those sequences of calls that match; and so the tables
show it throughout every activation of a program of safe functions. -/
theorem functionTimer_iff (harranged : ∀ f, Arranged (program f).instrument (points f)) :
    (∀ f, (∀ path, (program f).Complete path → Paired (blockCalls (points f)) path) ↔
      (program f).TimerSafe (points f)) ∧
    (∀ cs, AgreesThroughout .generate .start cs ↔ Activity.start.Matched cs) ∧
    ((∀ f, (program f).TimerSafe (points f)) → ∀ depth < 2 ^ 32, ∀ f calls,
      IsActivation program points depth f calls →
        ∀ cs : List TimerCall, cs.map TimerCall.tagged = calls →
          AgreesThroughout .generate .start cs ∧
            (cs.foldl Activity.step .start).openCount = Activity.start.openCount) := by
  refine ⟨fun f => TimedFunction.paired_iff (harranged f),
    agreesThroughout_iff_matched tracks_start, fun hsafe depth hdepth f calls h cs hcs => ?_⟩
  have hsettles : Settles .start cs :=
    h.settles (fun f => (TimedFunction.paired_iff (harranged f)).mpr (hsafe f))
      (fun g => by rw [show Activity.start.openCount g = 0 from rfl]; omega) hcs
  exact ⟨(agreesThroughout_iff_matched tracks_start cs).mpr hsettles.1, hsettles.2⟩

/-- A function of one block, a return. -/
def oneReturn : TimedFunction where
  basicBlocks := [{ allFlagsDeadIn := [true], nonempty := by simp, targetBlocks := [], isExit := true
                    inRange := true, leaves := true }]
  entryBlock := 0
  entry_lt := by decide

theorem functionTimer_iff_oneReturn :
    (∀ _ : Nat, (∀ path, oneReturn.Complete path →
        Paired (blockCalls oneReturn.instrument) path) ↔
      oneReturn.TimerSafe oneReturn.instrument) ∧
    (∀ cs, AgreesThroughout .generate .start cs ↔ Activity.start.Matched cs) ∧
    ((∀ _ : Nat, oneReturn.TimerSafe oneReturn.instrument) → ∀ depth < 2 ^ 32, ∀ f calls,
      IsActivation (fun _ => oneReturn) (fun _ => oneReturn.instrument) depth f calls →
        ∀ cs : List TimerCall, cs.map TimerCall.tagged = calls →
          AgreesThroughout .generate .start cs ∧
            (cs.foldl Activity.step .start).openCount = Activity.start.openCount) :=
  @functionTimer_iff (fun _ => oneReturn) (fun _ => oneReturn.instrument)
    fun _ => ⟨.refl _, by decide⟩

/-- A call of `function_exit` without an entry before it. -/
theorem functionExit_unmatched :
    ¬AgreesThroughout .generate .start [⟨.functionExit, 0, 0⟩] := by
  rintro ⟨-, h⟩
  exact absurd (h.inFunction 0) (by decide)

end Program

end Pebil
