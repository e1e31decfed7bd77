import Cezos.Console.Fifo
import Cezos.Console.Scrollback

namespace Cezos

open Lib

variable {text : ConsoleTexts} {depth fuel : ℕ} {s s₁ s₂ s' : Input} {k : Cons} {c : CInt} {q cs : List CInt}
    {proc : Con CInt}
  {es : List ConsoleCall} {e : ConsoleCall}

/-- The write index is not compared with the read index: the character that takes the last free place empties the
ring. -/
def stored (q : List CInt) (c : CInt) : List CInt := if q.length + 1 = consbufsize then [] else q ++ [c]

theorem foldl_stored (hq : q.length < consbufsize) :
    cs.foldl stored q = (q ++ cs).drop (consbufsize * ((q.length + cs.length) / consbufsize)) := by
  have hsize : consbufsize = 512 := rfl
  induction cs generalizing q with
  | nil =>
    rw [List.append_nil, List.length_nil, Nat.add_zero, Nat.div_eq_of_lt hq, Nat.mul_zero, List.drop_zero]
    rfl
  | cons c cs ih =>
    rw [List.foldl_cons, List.length_cons]
    by_cases hfull : q.length + 1 = consbufsize
    · have hsum : q.length + (cs.length + 1) = cs.length + consbufsize := by omega
      have hlen : (q ++ [c]).length = consbufsize := by rw [List.length_append, List.length_singleton, hfull]
      rw [stored, if_pos hfull, @ih [] (Nat.zero_lt_of_lt hq), hsum, Nat.add_div_right _ (Nat.zero_lt_of_lt hq),
        List.nil_append,
        List.length_nil, Nat.zero_add, List.append_cons q c cs, Nat.mul_succ, Nat.add_comm, ← List.drop_drop]
      congr 1
      rw [← hlen, List.drop_left]
    · have hlen : (q ++ [c]).length = q.length + 1 := by rw [List.length_append, List.length_singleton]
      rw [stored, if_neg hfull, ih (by omega), hlen, List.append_cons q c cs, Nat.add_assoc, Nat.add_comm 1]

theorem foldl_stored_length (hq : q.length < consbufsize) :
    (cs.foldl stored q).length = (q.length + cs.length) % consbufsize := by
  rw [foldl_stored hq, List.length_drop, List.length_append]
  have := Nat.div_add_mod (q.length + cs.length) consbufsize
  omega

namespace Pending

theorem store (h : Pending k q) (hc : c ≠ 0#32 ∧ c.toNat < 256) : Pending (k.put c) (stored q c) := by
  have hroom := h.holds.room
  rw [List.length_map] at hroom
  unfold stored
  by_cases hfull : q.length + 1 = consbufsize
  · rw [if_pos hfull]
    refine ⟨?_, nofun⟩
    rw [h.put_ring]
    exact h.holds.push_full (by rwa [List.length_map])
  · rw [if_neg hfull]
    exact h.put (by omega) hc

theorem stores (h : Pending k q) (hcs : ∀ c ∈ cs, c ≠ 0#32 ∧ c.toNat < 256) :
    Pending (cs.foldl Cons.put k) (cs.foldl stored q) := by
  induction cs generalizing k q with
  | nil => exact h
  | cons c cs ih =>
    obtain ⟨hc, hcs⟩ := List.forall_mem_cons.mp hcs
    exact ih (h.store hc) hcs

theorem length_lt (h : Pending k q) : q.length < consbufsize := by
  have hroom := h.holds.room
  rwa [List.length_map] at hroom

end Pending

def unread (es : List ConsoleCall) : List CInt :=
  es.foldl (fun q e => (e.arrived.foldl stored q).drop e.returned.length) []

theorem Makes.arrived_chars (h : Makes text s e s') : ∀ c ∈ e.arrived, c ≠ 0#32 ∧ c.toNat < 256 := by
  cases e with
  | serialInterrupt cs => exact h.2.answers
  | keyboardInterrupt cs =>
    obtain ⟨_, _, _, hcs⟩ := h
    exact hcs.answers (fun _ _ _ => kbdProcData_answer)
  | consoleGetc cs cs' r =>
    obtain ⟨_, _, _, _, hcs, hcs'⟩ := h
    exact fun c hc => (List.mem_append.mp hc).elim (hcs.answers c) (hcs'.answers (fun _ _ _ => kbdProcData_answer) c)

theorem Makes.pending (h : Makes text s e s') (hs : Pending s.cons q) :
    Pending s'.cons ((e.arrived.foldl stored q).drop e.returned.length) := by
  have hall := hs.stores h.arrived_chars
  cases e with
  | serialInterrupt cs =>
    obtain ⟨⟨_, hr⟩, hcs⟩ := h
    obtain ⟨cs', hcs', hring⟩ := serialInterrupt_puts hr
    obtain ⟨rfl, _⟩ := hcs'.unique hcs
    rw [hring]
    exact hall
  | keyboardInterrupt cs =>
    obtain ⟨_, _, hr, hcs⟩ := h
    obtain ⟨cs', hcs', hring⟩ := consoleInterrupt_puts hr
    obtain ⟨rfl, _⟩ := hcs'.unique hcs
    rw [hring]
    exact hall
  | consoleGetc cs cs' r =>
    obtain ⟨_, _, d, hr, hcs, hcs'⟩ := h
    obtain ⟨cs₁, cs₂, d₁, k, hcs₁, hcs₂, hk, hend⟩ := consoleGetc_polls hr
    obtain ⟨rfl, rfl⟩ := hcs₁.unique hcs
    obtain ⟨rfl, _⟩ := hcs₂.unique hcs'
    subst hk
    obtain ⟨_, q', hq', hrest⟩ := hall.answer hend
    change Pending s'.cons (((cs₁ ++ cs₂).foldl stored q).drop (if r = 0#32 then [] else [r]).length)
    change (cs₁ ++ cs₂).foldl stored q = _ at hq'
    rwa [hq', List.drop_left]

theorem pending_run (hempty : s.cons.rpos = s.cons.wpos) (hlt : s.cons.rpos.toNat < consbufsize)
    (hrun : Trace (Makes text) s es s') :
    Pending s'.cons (unread es) := by
  have hstart : Pending s.cons [] := ⟨RingBuffer.holds_nil hlt (congrArg BitVec.toNat hempty.symm), nofun⟩
  unfold unread
  generalize ([] : List CInt) = q at hstart
  clear hempty hlt
  induction hrun generalizing q with
  | nil s => exact hstart
  | cons head tail ih => exact ih _ (head.pending hstart)

theorem pending_drains {rs : List CInt} (hq : Pending s.cons q)
    (hrun : Trace (Makes text) s (rs.map (.consoleGetc [] [])) s') :
    ∀ i < rs.length, rs[i]? = some (q.getD i 0#32) := by
  induction rs generalizing s q with
  | nil => exact fun i hi => absurd hi (Nat.not_lt_zero i)
  | cons r rs ih =>
    obtain ⟨s₁, ⟨_, _, d, hr, hcs, hcs'⟩, hrest⟩ := Trace.cons_iff.mp hrun
    obtain ⟨cs₁, cs₂, d₁, k, hcs₁, hcs₂, hk, hend⟩ := consoleGetc_polls hr
    obtain ⟨rfl, rfl⟩ := hcs₁.unique hcs
    obtain ⟨rfl, _⟩ := hcs₂.unique hcs'
    obtain rfl : k = s.cons := hk
    obtain ⟨hnone, q', rfl, hpending⟩ := hq.answer hend
    have hnext := ih hpending hrest
    intro i hi
    by_cases hz : r = 0#32
    · have hempty := hnone.mp hz
      rw [if_pos hz, List.nil_append] at hempty ⊢
      subst hempty
      cases i with
      | zero => rw [hz]; rfl
      | succ i => exact hnext i (Nat.lt_of_succ_lt_succ hi)
    · rw [if_neg hz]
      cases i with
      | zero => rfl
      | succ i => exact hnext i (Nat.lt_of_succ_lt_succ hi)

/-- Of the burst only what has no room is lost, and the ring is not emptied on the way. -/
structure DropsOverflow (text : ConsoleTexts) (k : Cons) (q cs : List CInt) (s' : Input) : Prop where
  returned : ∀ (rs : List CInt) s'', Trace (Makes text) s' (rs.map (.consoleGetc [] [])) s'' →
    ∀ i < rs.length, rs[i]? = some ((q ++ cs.take (consbufsize - 1 - q.length)).getD i 0#32)
  nonempty : ∀ n, q ++ cs.take n ≠ [] → ((cs.take n).foldl Cons.put k).rpos ≠ ((cs.take n).foldl Cons.put k).wpos

theorem dropsOverflow_iff (hk : Pending k q) (hcs : ∀ c ∈ cs, c ≠ 0#32 ∧ c.toNat < 256)
    (hs' : s'.cons = cs.foldl Cons.put k) :
    DropsOverflow text k q cs s' ↔ q.length + cs.length < consbufsize := by
  have hq := hk.length_lt
  constructor
  · intro h
    by_contra hfull
    -- the ring is emptied by the character that takes the last place
    have hn : consbufsize - q.length ≤ cs.length := by omega
    have htake : (cs.take (consbufsize - q.length)).length = consbufsize - q.length := List.length_take_of_le hn
    have hpending := hk.stores
      (fun c hc => hcs c (List.mem_of_mem_take hc) : ∀ c ∈ cs.take (consbufsize - q.length), _)
    have hlen := @foldl_stored_length _ (cs.take (consbufsize - q.length)) hq
    rw [htake, Nat.add_sub_cancel' (Nat.le_of_lt hq), Nat.mod_self] at hlen
    refine h.nonempty (consbufsize - q.length) (fun hnil => ?_)
      (hpending.empty_iff.mpr (List.eq_nil_of_length_eq_zero hlen))
    have hzero := congrArg List.length hnil
    rw [List.length_append, htake, List.length_nil] at hzero
    omega
  · intro hroom
    have hfits : cs.take (consbufsize - 1 - q.length) = cs := List.take_of_length_le (by omega)
    refine ⟨fun rs s'' hrun => ?_, fun n hne he => ?_⟩
    · rw [hfits]
      refine pending_drains ?_ hrun
      rw [hs']
      exact hk.puts hroom hcs
    · have hlen := List.length_take_le' n cs
      have hpending : Pending ((cs.take n).foldl Cons.put k) (q ++ cs.take n) :=
        hk.puts (by omega) (fun c hc => hcs c (List.mem_of_mem_take hc))
      exact hne (hpending.empty_iff.mp he)

theorem consoleInterrupt_ends {all : List CInt} {d' : Console} (h : Answers proc s.con (all ++ [-1#32]) d')
    (hno : -1#32 ∉ all)
    (hf : all.length < fuel) : ∃ s', Returns false (consoleInterrupt fuel proc) s () s' ∧ s'.con = d' := by
  induction all generalizing s fuel with
  | nil =>
    obtain ⟨n, rfl⟩ : ∃ n, fuel = n + 1 := ⟨fuel - 1, by omega⟩
    obtain ⟨d, hd, hnil⟩ := Trace.cons_iff.mp h
    obtain rfl := Trace.nil_iff.mp hnil
    refine ⟨{ s with con := d' }, returns_whileSome_succ.mpr (Or.inl ⟨?_, rfl⟩), rfl⟩
    refine returns_bind.mpr ⟨-1#32, _, returns_zoom.mpr ⟨d', hd, rfl⟩, ?_⟩
    exact returns_ite.mpr (Or.inl ⟨rfl, returns_pure.mpr ⟨rfl, rfl⟩⟩)
  | cons c all ih =>
    obtain ⟨n, rfl⟩ : ∃ n, fuel = n + 1 := ⟨fuel - 1, by omega⟩
    obtain ⟨d, hd, hrest⟩ := Trace.cons_iff.mp h
    rw [List.length_cons] at hf
    have hc : c ≠ -1#32 := fun he => hno (he ▸ List.mem_cons_self)
    have hno' : -1#32 ∉ all := fun hm => hno (List.mem_cons_of_mem c hm)
    by_cases hz : c = 0#32
    · obtain ⟨s', hr, hs'⟩ := @ih n { s with con := d } hrest hno' (by omega)
      refine ⟨s', returns_whileSome_succ.mpr (Or.inr ⟨(), { s with con := d }, ?_, hr⟩), hs'⟩
      refine returns_bind.mpr ⟨c, _, returns_zoom.mpr ⟨d, hd, rfl⟩, ?_⟩
      rw [if_neg hc, if_pos hz]
      exact returns_pure.mpr ⟨rfl, rfl⟩
    · obtain ⟨s', hr, hs'⟩ := @ih n { con := d, cons := s.cons.put c } hrest hno' (by omega)
      refine ⟨s', returns_whileSome_succ.mpr (Or.inr ⟨(), { con := d, cons := s.cons.put c }, ?_, hr⟩), hs'⟩
      refine returns_bind.mpr ⟨c, _, returns_zoom.mpr ⟨d, hd, rfl⟩, ?_⟩
      rw [if_neg hc, if_neg hz]
      refine returns_bind.mpr ⟨(), { s with con := d }, returns_check.mpr ⟨rfl, nofun⟩, ?_⟩
      exact returns_bind.mpr ⟨(), _, returns_modify.mpr rfl, returns_pure.mpr ⟨rfl, rfl⟩⟩

theorem consoleInterrupt_overrun_iff (hempty : s.cons.rpos = s.cons.wpos) (hlt : s.cons.rpos.toNat < consbufsize)
    (hrun : Trace (Makes text) s es s₁) (hdevice : proc = serialProcData ∨
    ∃ depth fuel, proc = kbdProcData text depth fuel)
    (hburst : Returns false (consoleInterrupt fuel proc) s₁ () s') (hcs : Produces proc s₁.con cs s'.con) :
    Pending s₁.cons (unread es) ∧
    Pending s'.cons ((unread es ++ cs).drop (consbufsize * (((unread es).length + cs.length) / consbufsize))) ∧
    (DropsOverflow text s₁.cons (unread es) cs s' ↔ (unread es).length + cs.length < consbufsize) := by
  have hpending := pending_run hempty hlt hrun
  have hanswer : ∀ d c d', Returns false proc d c d' → IsAnswer c := by
    rcases hdevice with rfl | ⟨depth, fuel, rfl⟩
    · exact fun _ _ _ => serialProcData_answer
    · exact fun _ _ _ => kbdProcData_answer
  have hchars := hcs.answers hanswer
  obtain ⟨cs', hcs', hring⟩ := consoleInterrupt_puts hburst
  obtain ⟨rfl, _⟩ := hcs'.unique hcs
  refine ⟨hpending, ?_, dropsOverflow_iff hpending hchars hring⟩
  rw [← foldl_stored hpending.length_lt, hring]
  exact hpending.stores hchars

/-- A serial line with `n` characters, a pause and `m` characters more. -/
def serialBurst (n m : ℕ) : Input where
  con := { fullConsole with
    device := fun t p =>
      if p = 0x3F8#16 then 0x41#8 else if p = 0x3FD#16 ∧ t ≠ 2 * n ∧ t < 2 * (n + m) + 1 then 0x01#8 else 0x00#8
    serialExists := true }
  cons := ⟨fun _ => 0#8, 0#32, 0#32⟩

theorem serialProcData_idle {d : Console} (h : d.device d.clock 0x3FD#16 &&& comLsrData = 0#8) :
    serialProcData d = .ret (-1#32) { d with clock := d.clock + 1 } true := by
  rw [serialProcData, bind_clean inb_eval,
    if_pos (show d.device d.clock ((com1 + comLsr).setWidth 16) &&& comLsrData = 0#8 from h)]
  rfl

theorem serialProcData_data {d : Console} (h : d.device d.clock 0x3FD#16 &&& comLsrData ≠ 0#8) :
    serialProcData d = .ret ((d.device (d.clock + 1) 0x3F8#16).setWidth 32) { d with clock := d.clock + 2 }
      true := by
  rw [serialProcData, bind_clean inb_eval,
    if_neg (show d.device d.clock ((com1 + comLsr).setWidth 16) &&& comLsrData ≠ 0#8 from h),
    bind_clean inb_eval]
  rfl

theorem serial_answers {d : Console} {m : ℕ} (hdata : ∀ t, d.device t 0x3F8#16 = 0x41#8)
    (hready : ∀ i < m, d.device (d.clock + 2 * i) 0x3FD#16 &&& comLsrData ≠ 0#8)
    (hlast : d.device (d.clock + 2 * m) 0x3FD#16 &&& comLsrData = 0#8) :
    Answers serialProcData d (List.replicate m 0x41#32 ++ [-1#32]) { d with clock := d.clock + 2 * m + 1 } := by
  induction m generalizing d with
  | zero => exact Trace.single (returns_ret (serialProcData_idle hlast))
  | succ m ih =>
    have hhead := serialProcData_data (hready 0 (Nat.succ_pos m))
    rw [hdata] at hhead
    have hclock : ∀ i, d.clock + 2 + 2 * i = d.clock + 2 * (i + 1) := fun i => by omega
    have hrest := @ih { d with clock := d.clock + 2 } hdata
      (fun i hi => by rw [hclock]; exact hready (i + 1) (Nat.succ_lt_succ hi)) (by rw [hclock]; exact hlast)
    rw [hclock] at hrest
    exact .cons (returns_ret hhead) hrest

theorem serialInterrupt_produces {s : Input} {m : ℕ} (hdata : ∀ t, s.con.device t 0x3F8#16 = 0x41#8)
    (hready : ∀ i < m, s.con.device (s.con.clock + 2 * i) 0x3FD#16 &&& comLsrData ≠ 0#8)
    (hlast : s.con.device (s.con.clock + 2 * m) 0x3FD#16 &&& comLsrData = 0#8) :
    ∃ s', Returns false (consoleInterrupt (m + 1) serialProcData) s () s' ∧
      s'.con = { s.con with clock := s.con.clock + 2 * m + 1 } ∧
      Produces serialProcData s.con (List.replicate m 0x41#32) s'.con := by
  have h := serial_answers hdata hready hlast
  have hno : -1#32 ∉ List.replicate m 0x41#32 := fun hm => absurd (List.eq_of_mem_replicate hm) (by decide)
  obtain ⟨s', hr, hs'⟩ := @consoleInterrupt_ends (m + 1) s _ _ _ h hno (by rw [List.length_replicate]; omega)
  refine ⟨s', hr, hs', List.replicate m 0x41#32, hs' ▸ h, hno, (List.filter_eq_self.mpr (fun c hc => ?_)).symm⟩
  rw [List.eq_of_mem_replicate hc]
  rfl

theorem serialBurst_ready {n m t : ℕ} (h : t ≠ 2 * n) (ht : t < 2 * (n + m) + 1) :
    (serialBurst n m).con.device t 0x3FD#16 &&& comLsrData ≠ 0#8 := by
  change (if 0x3FD#16 = 0x3F8#16 then 0x41#8 else
    if 0x3FD#16 = 0x3FD#16 ∧ t ≠ 2 * n ∧ t < 2 * (n + m) + 1 then 0x01#8 else 0x00#8) &&& _ ≠ _
  rw [if_neg (by decide), if_pos ⟨rfl, h, ht⟩]
  decide

theorem serialBurst_idle {n m t : ℕ} (h : t = 2 * n ∨ t = 2 * (n + m) + 1) :
    (serialBurst n m).con.device t 0x3FD#16 &&& comLsrData = 0#8 := by
  change (if 0x3FD#16 = 0x3F8#16 then 0x41#8 else
    if 0x3FD#16 = 0x3FD#16 ∧ t ≠ 2 * n ∧ t < 2 * (n + m) + 1 then 0x01#8 else 0x00#8) &&& _ = _
  rw [if_neg (by decide), if_neg (by omega)]
  rfl

theorem serialBurst_runs (n m : ℕ) : ∃ s₁ s',
    Makes noTexts (serialBurst n m) (.serialInterrupt (List.replicate n 0x41#32)) s₁ ∧
      Returns false (consoleInterrupt (m + 1) serialProcData) s₁ () s' ∧
      Produces serialProcData s₁.con (List.replicate m 0x41#32) s'.con := by
  have hclock : (serialBurst n m).con.clock = 0 := rfl
  obtain ⟨s₁, hr₁, hcon, hcs₁⟩ := @serialInterrupt_produces (serialBurst n m) n (fun _ => rfl)
    (fun i hi => serialBurst_ready (by omega) (by omega)) (serialBurst_idle (Or.inl (by omega)))
  have hdevice : s₁.con.device = (serialBurst n m).con.device := by rw [hcon]
  have hclock₁ : s₁.con.clock = 2 * n + 1 := by
    rw [hcon]
    change (serialBurst n m).con.clock + 2 * n + 1 = _
    omega
  obtain ⟨s', hr', _, hcs'⟩ := @serialInterrupt_produces s₁ m (by rw [hdevice]; exact fun _ => rfl)
    (fun i hi => by rw [hdevice, hclock₁]; exact serialBurst_ready (by omega) (by omega))
    (by rw [hdevice, hclock₁]; exact serialBurst_idle (Or.inr (by omega)))
  have hmakes : Makes noTexts (serialBurst n m) (.serialInterrupt (List.replicate n 0x41#32)) s₁ :=
    ⟨⟨n + 1, returns_bind.mpr ⟨true, _, returns_read.mpr ⟨rfl, rfl⟩, returns_ite.mpr (Or.inl ⟨rfl, hr₁⟩)⟩⟩,
      Or.inl ⟨rfl, hcs₁⟩⟩
  exact ⟨s₁, s', hmakes, hr', hcs'⟩

theorem consoleInterrupt_overrun_one : ∃ s₁ s',
    Makes noTexts (serialBurst 3 5) (.serialInterrupt (List.replicate 3 0x41#32)) s₁ ∧
      Returns false (consoleInterrupt 6 serialProcData) s₁ () s' ∧
      DropsOverflow noTexts s₁.cons (List.replicate 3 0x41#32) (List.replicate 5 0x41#32) s' := by
  obtain ⟨s₁, s', hfirst, hr, hcs⟩ := serialBurst_runs 3 5
  have hdrops := (consoleInterrupt_overrun_iff rfl (by decide) (.single hfirst) (Or.inl rfl) hr hcs).2.2.mpr
    (by decide)
  exact ⟨s₁, s', hfirst, hr, hdrops⟩

theorem not_consoleInterrupt_overrun : ¬ ∀ (text : ConsoleTexts) (fuel : ℕ) (s s₁ s' : Input) (es : List ConsoleCall)
    (cs : List CInt), s.cons.rpos = s.cons.wpos → s.cons.rpos.toNat < consbufsize → Trace (Makes text) s es s₁ →
    Returns false (consoleInterrupt fuel serialProcData) s₁ () s' → Produces serialProcData s₁.con cs s'.con →
    DropsOverflow text s₁.cons (unread es) cs s' := by
  intro h
  obtain ⟨s₁, s', hfirst, hr, hcs⟩ := serialBurst_runs 0 512
  have hrun : Trace (Makes noTexts) (serialBurst 0 512) [.serialInterrupt []] s₁ := .single hfirst
  have hdrops := h noTexts 513 _ _ _ _ _ rfl (by decide) hrun hr hcs
  obtain ⟨cs', hcs', hring⟩ := consoleInterrupt_puts hr
  obtain ⟨rfl, _⟩ := hcs'.unique hcs
  have hpending := pending_run rfl (by decide) hrun
  have hroom := (dropsOverflow_iff hpending (hcs.answers (fun _ _ _ => serialProcData_answer)) hring).mp hdrops
  rw [List.length_replicate] at hroom
  exact absurd hroom (by decide)

end Cezos
