import Nmdns.Lifecycle
import Nmdns.Peer

/-!
# The end of the process

What happens after a signal, over all interleavings in which nothing is late by more than `δ`.

* `Process.Final`: handlers that were accepted before the main loop was left have ended by the
  second round of goodbyes, so that no response follows it;
* `goodbye_final`: a peer that hears the daemon to its end holds nothing of what was withdrawn;
* `shutdown_bounded`: the process ends within 1.2 seconds and a few delays of the signal.
-/

namespace Nmdns

open Async

/-! ### Handlers end before the second round of goodbyes -/

/-- A goodbye of the second round. -/
def Output.isLastGoodbye : Output → Bool
  | .goodbye round _ => round == 1
  | _ => false

def Output.isResponse : Output → Bool
  | .response _ _ => true
  | _ => false

/-- A handler that was accepted by `T`: it has begun by `T + δ`, and waits for at most half a
second. -/
def Inflight.Settled (T δ : ℕ) : Inflight → Prop
  | .spawned time _ => time ≤ T
  | .asleep time _ _ delay => time ≤ T + δ ∧ delay ≤ fromMillis 500
  | .forwarding _ _ => True

/-- No handler has been kept waiting for longer than `δ`. -/
def Process.HandlersOnTime (δ : ℕ) (s : Process) (now : ℕ) : Prop :=
  ∀ h ∈ s.handlers, now ≤ h.ready + δ

instance (δ : ℕ) (s : Process) (now : ℕ) : Decidable (s.HandlersOnTime δ now) :=
  inferInstanceAs (Decidable (∀ h ∈ s.handlers, now ≤ h.ready + δ))

/-- The handlers and the second round of goodbyes.  `T` is when the main loop was left. -/
structure Process.Final (p : Published) (δ : ℕ) (s : Process) (now : ℕ) : Prop where
  settled : ∀ h ∈ s.handlers, h.Settled now δ
  before : ¬ s.main.pc.leaving → ∀ a ∈ s.wire, a.output.isLastGoodbye = false
  after : s.main.pc.leaving → ∃ T, (∀ h ∈ s.handlers, h.Settled T δ) ∧
    T + mainClock s.main.pc ≤ s.main.since ∧
    ∀ a ∈ s.wire, a.output.isLastGoodbye = true → T + announceGap ≤ a.time
  order : s.wire.Pairwise fun a b => a.output.isLastGoodbye = true → b.output.isResponse = false
  messages : ∀ a ∈ s.wire, ∀ round m, a.output = .goodbye round m → goodbyeMessage p = some m

section Final

variable {launch : Launch} {config : Resolved} {ifaces : List Iface} {p : Published} {δ : ℕ}
  {s s' : Process} {now now' : ℕ}

theorem Inflight.Settled.mono {T T' : ℕ} {h : Inflight} (hs : h.Settled T δ) (hle : T ≤ T') :
    h.Settled T' δ := by
  cases h with
  | spawned time pkt => exact le_trans hs hle
  | asleep time pkt pd delay => exact ⟨hs.1.trans (Nat.add_le_add_right hle δ), hs.2⟩
  | forwarding time pkt => trivial

theorem Process.Final.mono (h : s.Final p δ now) (hle : now ≤ now') : s.Final p δ now' :=
  ⟨fun x hx => (h.settled x hx).mono hle, h.before, h.after, h.order, h.messages⟩

/-- Handlers come and go, and something is sent that is neither a response nor a goodbye. -/
theorem Process.Final.other (h : s.Final p δ now) (hmain : s'.main = s.main) (es : List Emission)
    (hwire : s'.wire = s.wire ++ es)
    (hes : ∀ b ∈ es, b.output.isGoodbye = false ∧
      (b.output.isResponse = true → ∀ a ∈ s.wire, a.output.isLastGoodbye = false))
    (hsettled : ∀ x ∈ s'.handlers, x.Settled now δ)
    (hafter : ∀ T, s.main.pc.leaving → (∀ x ∈ s.handlers, x.Settled T δ) →
      ∀ x ∈ s'.handlers, x.Settled T δ) : s'.Final p δ now := by
  have hlast : ∀ b ∈ es, b.output.isLastGoodbye = false := by
    intro b hb
    have hgood := (hes b hb).1
    revert hgood
    cases b.output <;> simp [Output.isGoodbye, Output.isLastGoodbye]
  refine ⟨hsettled, ?_, ?_, ?_, ?_⟩
  · intro hnl a ha
    rw [hmain] at hnl
    rw [hwire] at ha
    rcases List.mem_append.1 ha with ha | ha
    · exact h.before hnl a ha
    · exact hlast a ha
  · intro hl
    rw [hmain] at hl ⊢
    obtain ⟨T, hT, hclock, hgood⟩ := h.after hl
    refine ⟨T, hafter T hl hT, hclock, ?_⟩
    intro a ha
    rw [hwire] at ha
    rcases List.mem_append.1 ha with ha | ha
    · exact hgood a ha
    · rw [hlast a ha]
      exact fun hf => absurd hf Bool.false_ne_true
  · rw [hwire, List.pairwise_append]
    refine ⟨h.order, List.pairwise_of_forall_mem_list fun a ha b _ hgood => ?_, ?_⟩
    · rw [hlast a ha] at hgood
      cases hgood
    · intro a ha b hb hgood
      rw [← Bool.not_eq_true]
      intro hresp
      rw [(hes b hb).2 hresp a ha] at hgood
      cases hgood
  · intro a ha round m hm
    rw [hwire] at ha
    rcases List.mem_append.1 ha with ha | ha
    · exact h.messages a ha round m hm
    · have hgood := (hes a ha).1
      rw [hm] at hgood
      cases hgood

/-- What an effect of the main task withdraws. -/
theorem goodbye_of_mem_emissions {e : Option MainEffect} {wire : Wire} {id : UInt16} {a : Emission}
    (ha : a ∈ e.toList.flatMap (MainEffect.emissions p now wire id)) {round : ℕ} {m : Outgoing}
    (hm : a.output = .goodbye round m) : goodbyeMessage p = some m := by
  obtain ⟨effect, -, ha⟩ := List.mem_flatMap.1 ha
  cases effect with
  | probe iface attempt =>
    obtain ⟨m', -, rfl⟩ := of_mem_emit ha
    cases hm
  | announce iface round =>
    obtain ⟨m', -, rfl⟩ := of_mem_emit ha
    cases hm
  | spawn => cases ha
  | goodbye iface round =>
    obtain ⟨m', hm', rfl⟩ := of_mem_emit ha
    cases hm
    exact hm'

/-- An event of the main task: when the main loop is left, all handlers are settled. -/
theorem Process.Final.main (h : s.Final p δ now)
    (hserving : s.stop.isSome = true → s.main.pc.serving) {wire : Wire} {id : UInt16} {d : ℕ}
    {pc : MainPc} {e : Option MainEffect}
    (hmoves : (mainProgram p ifaces s.main.pc s.main.since).Moves s.stop.isSome d pc e)
    (hd : s.main.since + d ≤ now) (hmain : s'.main = ⟨pc, now⟩)
    (hhandlers : s'.handlers = s.handlers)
    (hwire : s'.wire = s.wire ++ e.toList.flatMap (MainEffect.emissions p now wire id)) :
    s'.Final p δ now := by
  have hahead := (mainClock_virtual p ifaces).moves trivial hmoves hd
  have hleaving := leaving_of_moves hmoves hserving
  have hnew : ∀ em ∈ e.toList.flatMap (MainEffect.emissions p now wire id), em.time = now ∧
      em.output.phase = s.main.pc.phase ∧ em.output.offset = some (mainClock s.main.pc) ∧
      (em.output.isGoodbye = true → s.main.pc.leaving) :=
    fun em hem => emission_of_moves hserving hmoves hem
  have hlast : ∀ em : Emission, em.output.isLastGoodbye = true → em.output.isGoodbye = true := by
    intro em
    cases em.output <;> simp [Output.isGoodbye, Output.isLastGoodbye]
  refine ⟨by rw [hhandlers]; exact h.settled, ?_, ?_, ?_, ?_⟩
  · intro hnl a ha
    rw [hmain, hleaving, not_or] at hnl
    rw [hwire] at ha
    rcases List.mem_append.1 ha with ha | ha
    · exact h.before hnl.1 a ha
    · rw [← Bool.not_eq_true]
      exact fun hgood => hnl.1 ((hnew a ha).2.2.2 (hlast a hgood))
  · intro hl
    rw [hmain] at hl ⊢
    rw [hhandlers, hwire]
    rcases hleaving.1 hl with hl' | hloop
    · obtain ⟨T, hT, hclock, hgood⟩ := h.after hl'
      refine ⟨T, hT, by simp only; omega, ?_⟩
      intro a ha hg
      rcases List.mem_append.1 ha with ha | ha
      · exact hgood a ha hg
      · -- a goodbye of the second round is sent when the clock of the main task shows a second
        obtain ⟨htime, -, hoffset, -⟩ := hnew a ha
        have hround : a.output.offset = some announceGap := by
          revert hg
          cases a.output <;> simp [Output.isLastGoodbye, Output.offset]
          rintro rfl
          exact Nat.one_mul _
        rw [hround, Option.some_inj] at hoffset
        omega
    · -- the main loop is left now
      have hnl : ¬ s.main.pc.leaving := by
        rw [hloop]
        exact not_false
      have hserv : s.main.pc.serving := by
        rw [hloop]
        trivial
      rcases serving_moves hserv hmoves with ⟨-, -, rfl, hpc⟩ | ⟨_, _, _, hpc, -⟩ | ⟨hpc, -⟩ |
        ⟨_, -, hpc, -⟩ | ⟨hpc, -⟩ | ⟨hpc, -⟩
      case inl =>
        refine ⟨now, h.settled, ?_, ?_⟩
        · have hzero : mainClock pc = 0 := by
            rw [hpc]
            split_ifs <;> simp [mainClock]
          rw [hzero]
          exact le_rfl
        · intro a ha hg
          rw [Option.toList_none, List.flatMap_nil, List.append_nil] at ha
          rw [h.before hnl a ha] at hg
          cases hg
      all_goals
        rw [hloop] at hpc
        cases hpc
  · rw [hwire, List.pairwise_append]
    have hresp : ∀ em ∈ e.toList.flatMap (MainEffect.emissions p now wire id),
        em.output.isResponse = false := by
      intro em hem
      obtain ⟨-, -, hoffset, -⟩ := hnew em hem
      revert hoffset
      cases em.output <;> simp [Output.isResponse, Output.offset]
    exact ⟨h.order, List.pairwise_of_forall_mem_list fun a _ b hb _ => hresp b hb,
      fun a _ b hb _ => hresp b hb⟩
  · intro a ha round m hm
    rw [hwire] at ha
    rcases List.mem_append.1 ha with ha | ha
    · exact h.messages a ha round m hm
    · exact goodbye_of_mem_emissions ha hm

/-- **One event**, if no handler is late. -/
theorem Process.Final.next (hδ : 2 * δ < fromMillis 500)
    (h : s.Final launch.published δ now) (hsched : s.Scheduled now)
    (href : s.Refines config ifaces launch.published now) (hon : s.HandlersOnTime δ now)
    (hnext : s.Next launch now s') : s'.Final launch.published δ now := by
  have herase : ∀ {n : ℕ} {x : Inflight}, x ∈ s.handlers.eraseIdx n → x ∈ s.handlers :=
    fun hx => List.eraseIdx_subset hx
  cases hnext with
  | idle => exact h
  | main hmoves hd => exact h.main href.serving_of_stop hmoves hd rfl rfl rfl
  | browser hexit hbg hmoves hd =>
    refine h.other rfl _ rfl ?_ h.settled fun T _ hT => hT
    intro b hb
    obtain ⟨effect, -, hb⟩ := List.mem_flatMap.1 hb
    cases effect with
    | encode round => cases hb
    | query iface round =>
      simp only [BrowserEffect.emissions] at hb
      split_ifs at hb
      · rw [List.mem_singleton.1 hb]
        exact ⟨rfl, fun hf => absurd hf Bool.false_ne_true⟩
      · cases hb
  | evictor hexit hbg hmoves hd =>
    exact h.other rfl [] (List.append_nil _).symm (by simp) h.settled fun T _ hT => hT
  | signal hbg hstop =>
    exact h.other rfl [] (List.append_nil _).symm (by simp) h.settled fun T _ hT => hT
  | receive hloop hlen =>
    refine h.other rfl [] (List.append_nil _).symm (by simp) ?_ ?_
    · intro x hx
      rcases List.mem_append.1 hx with hx | hx
      · exact h.settled x hx
      · rw [List.mem_singleton.1 hx]
        exact le_rfl
    · intro T hl
      rw [hloop] at hl
      exact hl.elim
  | handle σ rand hexit hn =>
    have hmem := List.mem_of_getElem? hn
    have hready := hon _ hmem
    refine h.other rfl [] (List.append_nil _).symm (by simp) ?_ ?_
    · intro x hx
      rcases List.mem_append.1 hx with hx | hx
      · exact h.settled x (herase hx)
      · rcases mem_beginDatagram hx with ⟨pd, rfl⟩ | rfl
        · exact ⟨Nat.le_add_right _ _, responseDelay_le _ _⟩
        · trivial
    · intro T hl hT x hx
      rcases List.mem_append.1 hx with hx | hx
      · exact hT x (herase hx)
      · rcases mem_beginDatagram hx with ⟨pd, rfl⟩ | rfl
        · have htime := hT _ hmem
          simp only [Inflight.Settled, Inflight.ready] at htime hready
          exact ⟨by omega, responseDelay_le _ _⟩
        · trivial
  | wake wire hexit hn hready =>
    rename_i n time delay pkt pd
    have hmem := List.mem_of_getElem? hn
    have hlate := hon _ hmem
    have hrest : ∀ x ∈ Inflight.rest s.shared.config now pkt, ∀ T, x.Settled T δ := by
      intro x hx T
      unfold Inflight.rest at hx
      split_ifs at hx
      · rw [List.mem_singleton.1 hx]
        trivial
      · cases hx
    refine h.other rfl _ rfl ?_ ?_ ?_
    · intro b hb
      obtain ⟨resp, -, rfl⟩ := List.mem_map.1 hb
      refine ⟨rfl, fun _ a ha => ?_⟩
      rw [← Bool.not_eq_true]
      intro hgood
      -- the handler was accepted before the main loop was left, more than a second ago
      by_cases hl : s.main.pc.leaving
      · obtain ⟨T, hT, -, hlast⟩ := h.after hl
        have hgap := hlast a ha hgood
        have hpast := hsched.past a ha
        have htime := hT _ hmem
        simp only [Inflight.Settled, Inflight.ready, announceGap, fromSecs, fromMillis] at *
        omega
      · rw [h.before hl a ha] at hgood
        cases hgood
    · intro x hx
      rcases List.mem_append.1 hx with hx | hx
      · exact h.settled x (herase hx)
      · exact hrest x hx _
    · intro T _ hT x hx
      rcases List.mem_append.1 hx with hx | hx
      · exact hT x (herase hx)
      · exact hrest x hx _
  | forward sockets hexit hn =>
    refine h.other rfl _ rfl ?_ (fun x hx => h.settled x (herase hx)) fun T _ hT x hx =>
      hT x (herase hx)
    intro b hb
    obtain ⟨i, -, rfl⟩ := List.mem_map.1 hb
    exact ⟨rfl, fun hf => absurd hf Bool.false_ne_true⟩

theorem final_start (config : Resolved) (ifaces : List Iface) (p : Published) (δ now : ℕ) :
    (Process.start config ifaces now).Final p δ now where
  settled := by simp [Process.start]
  before _ := by simp [Process.start]
  after h := h.elim
  order := List.Pairwise.nil
  messages := by simp [Process.start]

theorem final_run (hδ : 2 * δ < fromMillis 500) (config : Resolved) (ifaces : List Iface)
    (launch : Launch) {t₀ : ℕ} {evs : List ProcessEvent}
    (hsorted : (t₀ :: evs.map ProcessEvent.time).Pairwise (· ≤ ·))
    (hon : Along (Process.step launch) (fun s ev => s.HandlersOnTime δ ev.time)
      (Process.start config ifaces t₀) evs) :
    ∃ now, ((Process.start config ifaces t₀).run launch evs).Scheduled now ∧
      ((Process.start config ifaces t₀).run launch evs).Final launch.published δ now := by
  obtain ⟨now, -, h⟩ := Process.run_invariant
    (I := fun s now => s.Refines config ifaces launch.published now ∧ s.Scheduled now ∧
      s.Final launch.published δ now)
    (fun _ _ _ h hle => ⟨h.1.mono hle, h.2.1.mono hle, h.2.2.mono hle⟩)
    (fun _ _ _ _ h hP hnext =>
      ⟨h.1.next hnext, h.2.1.next h.1 hnext, h.2.2.next hδ h.2.1 h.1 hP hnext⟩)
    (clocked_start config ifaces t₀)
    ⟨refines_start config ifaces launch.published t₀, scheduled_start config ifaces t₀,
      final_start config ifaces launch.published δ t₀⟩ hon hsorted
  exact ⟨now, h⟩

end Final

/-! ### A peer that hears the daemon to its end -/

/-- The records that a peer takes from a message of the daemon's own. -/
def Output.records : Output → List Record
  | .announcement _ m | .goodbye _ m => m.records
  | .response _ resp => resp.records
  | _ => []

/-- The peer hears messages one after the other. -/
def Cache.hearAll (c : Cache) (σ : CacheOrder) (src : Option UInt32) (es : List Emission) : Cache :=
  es.foldl (fun c e => c.hear σ e.time src e.output.records) c

section Hear

variable {c : Cache} {σ : CacheOrder} {now : ℕ} {src : Option UInt32} {k : RecordKey}

theorem hear_maxTtl (rs : List Record) : (c.hear σ now src rs).maxTtl = c.maxTtl := by
  rw [hear_eq_run]
  exact run_maxTtl _ _

/-- Goodbyes remove what they name and bring nothing back. -/
theorem hear_goodbyes (hcap : CapOk c.maxTtl) {rs : List Record} (hrs : ∀ r ∈ rs, r.ttl = 0)
    (h : c.byKey.find? k = none ∨ ∃ r ∈ rs, k == RecordKey.of r.received) :
    (c.hear σ now src rs).byKey.find? k = none := by
  induction rs generalizing c with
  | nil =>
    rcases h with h | ⟨r, hr, -⟩
    · exact h
    · cases hr
  | cons r rs ih =>
    have hzero : capTtl c.maxTtl r.received.ttl = 0 :=
      (capTtl_eq_zero hcap).2 (hrs r List.mem_cons_self)
    show ((c.insertFrom σ now r.received src).1.hear σ now src rs).byKey.find? k = none
    refine ih (by rw [insertFrom_maxTtl]; exact hcap)
      (fun r' hr' => hrs r' (List.mem_cons_of_mem _ hr')) ?_
    rw [insertFrom_find?_goodbye hzero]
    by_cases hk : k == RecordKey.of r.received
    · exact Or.inl (if_pos hk)
    · rw [if_neg hk]
      rcases h with h | ⟨r', hr', hk'⟩
      · exact Or.inl h
      · rcases List.mem_cons.1 hr' with rfl | hr'
        · exact absurd hk' hk
        · exact Or.inr ⟨r', hr', hk'⟩

theorem hearAll_goodbyes {es : List Emission} (hcap : CapOk c.maxTtl)
    (hes : ∀ e ∈ es, ∀ r ∈ e.output.records, r.ttl = 0) (h : c.byKey.find? k = none) :
    (c.hearAll σ src es).byKey.find? k = none := by
  induction es generalizing c with
  | nil => exact h
  | cons e es ih =>
    refine ih (by rw [hear_maxTtl]; exact hcap)
      (fun e' he' => hes e' (List.mem_cons_of_mem _ he')) ?_
    exact hear_goodbyes hcap (hes e List.mem_cons_self) (Or.inl h)

theorem hearAll_maxTtl (es : List Emission) : (c.hearAll σ src es).maxTtl = c.maxTtl := by
  induction es generalizing c with
  | nil => rfl
  | cons e es ih => exact ih.trans (hear_maxTtl _)

end Hear

/-- **The last word is a goodbye.**  Let no handler be late by 250 ms or more.  A peer that hears on
some interface whatever the daemon sends there of its own, and among it a goodbye of the second
round, holds nothing in the end that the goodbye names, whatever it held before: also responses that
were under way when the daemon was stopped bring nothing back. -/
theorem goodbye_final {config : Resolved} {ifaces : List Iface} {launch : Launch} {δ : ℕ}
    (hδ : 2 * δ < fromMillis 500) {t₀ : ℕ} {evs : List ProcessEvent}
    (hsorted : (t₀ :: evs.map ProcessEvent.time).Pairwise (· ≤ ·))
    (hon : Along (Process.step launch) (fun s ev => s.HandlersOnTime δ ev.time)
      (Process.start config ifaces t₀) evs) {iface : Iface}
    (hsent : ∃ a ∈ ((Process.start config ifaces t₀).run launch evs).wire, a.iface = iface ∧
      a.output.isLastGoodbye = true)
    {c : Cache} (hcap : CapOk c.maxTtl) (σ : CacheOrder) (src : Option UInt32) :
    ∀ g ∈ goodbye launch.published,
      (c.hearAll σ src (((Process.start config ifaces t₀).run launch evs).wire.filter
        fun a => a.iface = iface)).byKey.find? (RecordKey.of g.received) = none := by
  intro g hg
  obtain ⟨now, hsched, hfinal⟩ := final_run hδ config ifaces launch hsorted hon
  generalize ((Process.start config ifaces t₀).run launch evs) = s at *
  obtain ⟨pre, a, post, hwire, ⟨hiface, hlast⟩, hpost⟩ := List.exists_last_split hsent
  have horder := hfinal.order
  have hfollows := hsched.order
  rw [hwire, List.pairwise_append, List.pairwise_cons] at horder hfollows
  -- what comes after the last goodbye carries no record that lives
  have hquiet : ∀ b ∈ post, ∀ r ∈ b.output.records, r.ttl = 0 := by
    intro b hb r hr
    have hresp := horder.2.1.1 b hb hlast
    have hphase := (hfollows.2.1.1 b hb).phase
    have hmem : b ∈ s.wire := by
      rw [hwire]
      exact List.mem_append_right _ (List.mem_cons_of_mem _ hb)
    have htwo : a.output.phase = 2 := by
      revert hlast
      cases a.output <;> simp [Output.isLastGoodbye, Output.phase]
    rw [htwo] at hphase
    cases hout : b.output with
    | goodbye round m =>
      have hm := hfinal.messages b hmem round m hout
      rw [hout, Output.records, ofAnswers_eq_some hm, List.append_nil] at hr
      exact goodbye_ttl hr
    | announcement round m =>
      rw [hout] at hphase
      exact absurd hphase (by simp [Output.phase])
    | response probeDefense resp =>
      rw [hout] at hresp
      cases hresp
    | probe _ _ | query _ _ | forward _ =>
      rw [hout] at hr
      cases hr
  have hsplit : s.wire.filter (fun a => a.iface = iface) = pre.filter (fun a => a.iface = iface) ++
      a :: post.filter (fun a => a.iface = iface) := by
    rw [hwire, List.filter_append, List.filter_cons_of_pos (by simpa using hiface)]
  obtain ⟨round, m, hout⟩ : ∃ round m, a.output = .goodbye round m := by
    revert hlast
    cases a.output <;> simp [Output.isLastGoodbye]
  have hm : goodbyeMessage launch.published = some m := by
    refine hfinal.messages a ?_ round m hout
    rw [hwire]
    exact List.mem_append_right _ List.mem_cons_self
  have hrecords : a.output.records = goodbye launch.published := by
    rw [hout, Output.records, ofAnswers_eq_some hm, List.append_nil]
  rw [hsplit, Cache.hearAll, List.foldl_append, List.foldl_cons]
  refine hearAll_goodbyes ?_ (fun b hb => hquiet b (List.mem_of_mem_filter hb)) ?_
  · rw [hear_maxTtl]
    exact (hearAll_maxTtl _).symm ▸ hcap
  · rw [hrecords]
    refine hear_goodbyes ((hearAll_maxTtl _).symm ▸ hcap) (fun r hr => goodbye_ttl hr)
      (Or.inr ⟨g, hg, BEq.rfl⟩)

/-- The router, which takes every datagram for a truncated query for its address. -/
def askedLaunch : Launch :=
  { routerLaunch with parse := fun _ => some { routerQuery with truncation := true } }

/-- The router is asked for its address just before it is stopped, and answers between its two
goodbyes. -/
def askedLife : List ProcessEvent :=
  routerBoot ++ [⟨fromMillis 2900, .receive eth0Datagram⟩,
    ⟨fromMillis 2900, .handle 0 (IterOrder.id _ _) 50⟩, ⟨fromMillis 3000, .signal⟩] ++
    ([3000, 3000, 3000].map fun ms => ⟨fromMillis ms, .main wireOk 0 true⟩) ++
    ⟨fromMillis 3400, .wake 0 wireOk⟩ ::
      [4000, 4000, 4000, 4000].map fun ms => ⟨fromMillis ms, .main wireOk 0 true⟩

theorem goodbye_final_asked :
    (((Process.start routerState.config [routerIface] 0).run askedLaunch askedLife).wire.map
        fun a => (a.output.isGoodbye, a.output.isResponse)) =
      [(false, false), (false, false), (false, false), (false, false), (false, false),
        (true, false), (false, true), (true, false)] ∧
      ∀ g ∈ goodbye askedLaunch.published, ((Cache.withCapacityAndMaxTtl 8 none).hearAll
        (IterOrder.id _ _) (some 1)
          (((Process.start routerState.config [routerIface] 0).run askedLaunch
            askedLife).wire.filter fun a => a.iface = routerIface)).byKey.find?
            (RecordKey.of g.received) = none := by
  have hsorted : (0 :: askedLife.map ProcessEvent.time).Pairwise (· ≤ ·) := by decide +kernel
  have hon : Along (Process.step askedLaunch)
      (fun s ev => s.HandlersOnTime (fromMillis 100) ev.time)
      (Process.start routerState.config [routerIface] 0) askedLife := by decide +kernel
  exact ⟨by decide +kernel,
    goodbye_final (by decide) hsorted hon (by decide +kernel) capOk_none _ _⟩

/-! ### The time of the shutdown -/

/-- Before the signal the main loop is not left; after it, the budget of the shutdown bounds the
time. -/
structure Process.Ending (n δ : ℕ) (s : Process) (now : ℕ) : Prop where
  running : s.stop = none → s.main.pc.serving → s.main.pc = .mainLoop
  stopped : ∀ t ∈ s.stop, t ≤ now ∧ s.main.pc.serving ∧
    max s.main.since t + shutdownBudget n δ s.main.pc ≤ t + shutdownBudget n δ .mainLoop

/-- The main task has not been kept waiting for longer than `δ`. -/
def Process.MainOnTime (p : Published) (ifaces : List Iface) (δ : ℕ) (s : Process) (now : ℕ) :
    Prop :=
  s.main.OnTime (mainProgram p ifaces) s.stop δ now

instance (p : Published) (ifaces : List Iface) (δ : ℕ) (s : Process) (now : ℕ) :
    Decidable (s.MainOnTime p ifaces δ now) :=
  inferInstanceAs (Decidable (s.main.OnTime (mainProgram p ifaces) s.stop δ now))

section Ending

variable {launch : Launch} {config : Resolved} {ifaces : List Iface} {δ : ℕ} {s s' : Process}
  {now now' : ℕ}

theorem Process.Ending.mono {n : ℕ} (h : s.Ending n δ now) (hle : now ≤ now') :
    s.Ending n δ now' :=
  ⟨h.running, fun t ht => ⟨(h.stopped t ht).1.trans hle, (h.stopped t ht).2⟩⟩

theorem Process.Ending.other {n : ℕ} (h : s.Ending n δ now) (hmain : s'.main = s.main)
    (hstop : s'.stop = s.stop) : s'.Ending n δ now := by
  refine ⟨?_, ?_⟩
  · rw [hmain, hstop]
    exact h.running
  · rw [hmain, hstop]
    exact h.stopped

/-- Until it has returned, the main task can go on after a signal. -/
theorem exists_moves (p : Published) (ifaces : List Iface) (since : ℕ) {pc : MainPc}
    (hserving : pc.serving) (hexit : pc ≠ .exited) :
    ∃ d pc' e, (mainProgram p ifaces pc since).Moves true d pc' e := by
  cases pc with
  | mainLoop => exact ⟨_, _, _, .await rfl⟩
  | announceGoodbye round todo =>
    cases todo with
    | nil =>
      by_cases hround : round = 0
      · exact ⟨0, .goodbyeGap, none, by simp [mainProgram, hround]⟩
      · exact ⟨0, .drain, none, by simp [mainProgram, hround]⟩
    | cons i todo => exact ⟨_, _, _, .act true⟩
  | goodbyeGap => exact ⟨_, _, _, .sleep⟩
  | drain => exact ⟨_, _, _, .timeout⟩
  | exited => exact absurd rfl hexit
  | probeAll _ | probeDelay _ _ _ | probe _ _ _ | probePause _ _ _ | announceAll _ _
  | announceGap | spawn => cases hserving

/-- **One event**, if the main task is not late. -/
theorem Process.Ending.next (h : s.Ending ifaces.length δ now)
    (hclock : s.main.since ≤ now) (href : s.Refines config ifaces launch.published now)
    (hon : s.MainOnTime launch.published ifaces δ now) (hnext : s.Next launch now s') :
    s'.Ending ifaces.length δ now := by
  cases hnext with
  | idle => exact h
  | main hmoves hd =>
    rw [href.ifaces_eq] at hmoves
    refine ⟨?_, ?_⟩
    · intro hnone hserving
      dsimp only at hnone hserving ⊢
      rcases (serving_iff_of_moves hmoves href.serving_of_stop).1 hserving with hs | rfl
      · -- the main loop waits for the token
        rw [h.running hnone hs] at hmoves
        obtain ⟨-, -, -, hstop⟩ := Op.moves_await.1 hmoves
        rw [hnone] at hstop
        cases hstop
      · have hns : ¬ s.main.pc.serving := by
          intro hs
          rw [h.running hnone hs] at hmoves
          cases (Op.moves_await.1 hmoves).2.2.1
        have hrun : s.stop.isSome = false := by rw [hnone]; rfl
        rcases startup_moves hns hrun hmoves with ⟨-, -, he | ⟨_, _, _, -, he⟩⟩ | ⟨-, -, he⟩ |
          ⟨_, _, _, -, -, he⟩ | ⟨-, -, he⟩ | ⟨-, -, he⟩ | ⟨_, -, -, -, he⟩ | ⟨-, hpc, -⟩
        case inr.inr.inr.inr.inr.inr => exact hpc
        all_goals cases he
    · intro t ht
      obtain ⟨hle, hserving, hbudget⟩ := h.stopped t ht
      have hstop : s.stop = some t := ht
      have hs : s.stop.isSome = true := by rw [hstop]; rfl
      rw [hs] at hmoves
      unfold Process.MainOnTime at hon
      rw [hstop] at hon
      have hmove := (shutdownBudget_spec launch.published ifaces δ).moves hserving hmoves hle hon
      exact ⟨hle, serving_closed _ _ hserving hmoves, hmove.trans hbudget⟩
  | signal hbg hstop =>
    refine ⟨fun hnone => (by cases hnone), ?_⟩
    rintro t ⟨⟩
    have hserving := href.serving.1 hbg
    have hloop := h.running hstop hserving
    refine ⟨le_rfl, hserving, ?_⟩
    rw [hloop, max_eq_right hclock]
  | browser _ _ _ _ | evictor _ _ _ _ | receive _ _ | handle _ _ _ _ | wake _ _ _ _
  | forward _ _ _ => exact h.other rfl rfl

end Ending

/-- **The process ends.**  Let the main task never be late by more than `δ`, which includes the time
of a send.  After a signal at `t` it has returned within 1.2 seconds, and a delay for each of the
goodbyes and five more. -/
theorem shutdown_bounded {config : Resolved} {ifaces : List Iface} {launch : Launch} {δ : ℕ}
    {t₀ t : ℕ} {evs : List ProcessEvent} {ev : ProcessEvent}
    (hsorted : (t₀ :: (evs ++ [ev]).map ProcessEvent.time).Pairwise (· ≤ ·))
    (hon : Along (Process.step launch)
      (fun s ev => s.MainOnTime launch.published ifaces δ ev.time)
      (Process.start config ifaces t₀) (evs ++ [ev]))
    (hstop : ((Process.start config ifaces t₀).run launch evs).stop = some t)
    (hlate : t + announceGap + drainLimit + (2 * ifaces.length + 5) * δ < ev.time) :
    ((Process.start config ifaces t₀).run launch evs).main.pc = .exited := by
  rw [along_append_singleton] at hon
  have hsorted' : (t₀ :: evs.map ProcessEvent.time).Pairwise (· ≤ ·) := by
    refine hsorted.sublist ?_
    rw [List.map_append]
    exact (List.sublist_append_left _ _).cons_cons _
  obtain ⟨now, href, hend⟩ := Process.run_invariant
    (I := fun s now => s.Refines config ifaces launch.published now ∧
      s.Ending ifaces.length δ now)
    (fun _ _ _ h hle => ⟨h.1.mono hle, h.2.mono hle⟩)
    (fun _ _ _ hclock h hP hnext => ⟨h.1.next hnext, h.2.next hclock.main h.1 hP hnext⟩)
    (clocked_start config ifaces t₀)
    ⟨refines_start config ifaces launch.published t₀,
      ⟨fun _ hs => hs.elim, by simp [Process.start]⟩⟩ hon.1 hsorted'
  have hlast := hon.2
  change ((Process.start config ifaces t₀).run launch evs).MainOnTime launch.published ifaces δ
    ev.time at hlast
  generalize (Process.start config ifaces t₀).run launch evs = s at *
  obtain ⟨-, hserving, hbudget⟩ := hend.stopped t hstop
  by_contra hexit
  obtain ⟨d, pc', e, hmoves⟩ := exists_moves launch.published ifaces s.main.since hserving
    hexit
  unfold Process.MainOnTime at hlast
  rw [hstop] at hlast
  have hle := (shutdownBudget_spec launch.published ifaces δ).le_of_onTime hserving hmoves hlast
  have hall : shutdownBudget ifaces.length δ .mainLoop =
      announceGap + drainLimit + (2 * ifaces.length + 5) * δ := rfl
  rw [hall] at hbudget
  omega

/-- The router ends 1.2 seconds after the signal, if nothing is late by more than a millisecond; its
browser and its evictor never notice the signal. -/
theorem shutdown_bounded_router :
    ((Process.start routerState.config [routerIface] 0).run routerLaunch routerLife).stop =
        some (fromSecs 2) ∧
      ((Process.start routerState.config [routerIface] 0).run routerLaunch routerLife).main.pc =
        .exited := by
  have hsorted : (0 :: (routerLife ++ [(⟨fromMillis 3300, .signal⟩ : ProcessEvent)]).map
      ProcessEvent.time).Pairwise (· ≤ ·) := by decide +kernel
  have hon : Along (Process.step routerLaunch)
      (fun s ev => s.MainOnTime routerLaunch.published [routerIface] (fromMillis 1) ev.time)
      (Process.start routerState.config [routerIface] 0)
      (routerLife ++ [⟨fromMillis 3300, .signal⟩]) := by decide +kernel
  have hstop : ((Process.start routerState.config [routerIface] 0).run routerLaunch
      routerLife).stop = some (fromSecs 2) := by decide +kernel
  exact ⟨hstop, shutdown_bounded hsorted hon hstop (by decide)⟩

end Nmdns
