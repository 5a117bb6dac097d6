import ComputerNetworking.Tcp.TcpAgent

/-!
# The sequence numbers of the sender

The invariant `Inv` orders the sequence numbers of the agent: what is acked, what
comes next and what was ever sent. Every operation keeps it and moves neither the
highest ack nor `maxseq_` back (`Advances`), except one: a new ack after a timeout
under F-RTO sets `t_seqno_` one past the recovery point, which may be acked already.
`Rewinds` is when this branch is taken.
-/

set_option autoImplicit false

namespace ComputerNetworking.Tcp

namespace TcpAgent

variable {a b c : TcpAgent} {env : Env} {force : Bool} {seqno top : ℤ}

/-- The order of the sequence numbers, up to the acks that come in, and the packets ever sent. -/
structure Inv (a : TcpAgent) (top : ℤ) : Prop where
  lastAck_eq : a.lastAck = a.highestAck
  ack_ge : -1 ≤ a.highestAck
  ack_le : a.highestAck ≤ top
  ack_lt : a.highestAck + 1 ≤ a.tSeqno
  le_maxseq : a.tSeqno ≤ a.maxseq + 1
  frto_on : a.frto ≠ 0 →
    a.recover ≤ a.maxseq ∧ (a.cfg.frtoEnabled = true ∨ a.cfg.sfrtoEnabled = true)
  sent : ∀ p ∈ a.sent, 0 ≤ p.seqno ∧ p.seqno ≤ a.maxseq ∧ p.size = a.cfg.packetSize p.seqno

/-- From `a` the agent comes to `b`, in order and not back. -/
structure Advances (top : ℤ) (a b : TcpAgent) : Prop where
  inv : b.Inv top
  cfg_eq : b.cfg = a.cfg
  ack_le : a.highestAck ≤ b.highestAck
  max_le : a.maxseq ≤ b.maxseq

/-- The fields that the invariant is about, F-RTO apart. -/
def core (a : TcpAgent) : Config × ℤ × ℤ × ℤ × ℤ × List Segment :=
  (a.cfg, a.tSeqno, a.maxseq, a.highestAck, a.lastAck, a.sent)

/-- A new ack that sets `t_seqno_` back to a segment that is acked: it comes first after a
timeout under F-RTO, goes beyond the recovery point, and does not make the sender reduce the
window, while there are new data and the receiver's window allows them. -/
def Rewinds (a : TcpAgent) (env : Env) (seqno : ℤ) : Prop :=
  a.frto = 1 ∧ a.lastAck < seqno ∧ a.recover < seqno ∧
    ¬(env.ecnecho = true ∧ a.cfg.ecn = true) ∧
    (a.recover : ℚ) + 1 < seqno + a.cfg.wnd ∧ a.recover + 1 < a.curseq

instance (a : TcpAgent) (env : Env) (seqno : ℤ) : Decidable (a.Rewinds env seqno) :=
  inferInstanceAs (Decidable (_ ∧ _ ∧ _ ∧ _ ∧ _ ∧ _))

theorem Inv.mono {top' : ℤ} (h : a.Inv top) (hle : top ≤ top') : a.Inv top' :=
  { h with ack_le := h.ack_le.trans hle }

theorem Advances.refl (h : a.Inv top) : Advances top a a := ⟨h, rfl, le_rfl, le_rfl⟩

theorem Advances.trans (hab : Advances top a b) (hbc : Advances top b c) : Advances top a c :=
  ⟨hbc.inv, hbc.cfg_eq.trans hab.cfg_eq, hab.ack_le.trans hbc.ack_le, hab.max_le.trans hbc.max_le⟩

/-- Other fields may change. -/
theorem Inv.of_core (h : a.Inv top) (hcore : b.core = a.core)
    (hfrto : b.frto ≠ 0 →
      b.recover ≤ b.maxseq ∧ (b.cfg.frtoEnabled = true ∨ b.cfg.sfrtoEnabled = true)) :
    Advances top a b := by
  simp only [core, Prod.mk.injEq] at hcore
  obtain ⟨hcfg, ht, hmax, hack, hlast, hsent⟩ := hcore
  refine ⟨⟨?_, ?_, ?_, ?_, ?_, hfrto, ?_⟩, hcfg, hack.ge, hmax.ge⟩
  · rw [hlast, hack]
    exact h.lastAck_eq
  · rw [hack]
    exact h.ack_ge
  · rw [hack]
    exact h.ack_le
  · rw [hack, ht]
    exact h.ack_lt
  · rw [ht, hmax]
    exact h.le_maxseq
  · rw [hsent, hmax, hcfg]
    exact h.sent

theorem le_output_maxseq (a : TcpAgent) (env : Env) (seqno : ℤ) :
    a.maxseq ≤ (a.output env seqno).maxseq ∧ seqno ≤ (a.output env seqno).maxseq := by
  rw [output]
  dsimp only
  split_ifs <;> omega

/-- Sending again what is not acked, or the next segment. -/
theorem Inv.output (h : a.Inv top) (env : Env) (hseq : 0 ≤ seqno) :
    Advances top a (a.output env seqno) := by
  obtain ⟨hmax, hnew⟩ := le_output_maxseq a env seqno
  refine ⟨⟨h.lastAck_eq, h.ack_ge, h.ack_le, h.ack_lt, ?_, ?_, ?_⟩, rfl, le_rfl, hmax⟩
  · exact h.le_maxseq.trans (by omega)
  · intro hfrto
    exact ⟨(h.frto_on hfrto).1.trans hmax, (h.frto_on hfrto).2⟩
  · intro p hp
    rcases List.mem_append.mp hp with hold | hlast
    · obtain ⟨hpos, hle, hsize⟩ := h.sent p hold
      exact ⟨hpos, hle.trans hmax, hsize⟩
    · rw [List.mem_singleton.mp hlast]
      exact ⟨hseq, hnew, rfl⟩

theorem Inv.sendNext (h : a.Inv top) (env : Env) : Advances top a (a.sendNext env) := by
  have hack := h.ack_ge
  have hlt := h.ack_lt
  have hout := h.output env (show 0 ≤ a.tSeqno by omega)
  have hnew := (le_output_maxseq a env a.tSeqno).2
  refine ⟨⟨h.lastAck_eq, hack, h.ack_le, ?_, ?_, hout.inv.frto_on, hout.inv.sent⟩, rfl,
    le_rfl, hout.max_le⟩
  · show a.highestAck + 1 ≤ a.tSeqno + 1
    omega
  · show a.tSeqno + 1 ≤ (a.output env a.tSeqno).maxseq + 1
    omega

theorem Inv.setDelsnd (h : a.Inv top) : Advances top a { a with delsndPending := true } :=
  h.of_core rfl h.frto_on

/-- One turn of the sending loop, and the others. -/
theorem Inv.sendLoop {fuel npackets : ℕ} (h : a.Inv top) :
    Advances top a (sendLoop env force fuel npackets a) := by
  induction fuel generalizing a npackets with
  | zero => exact Advances.refl h
  | succ fuel ih =>
      have hnext := h.sendNext env
      rw [TcpAgent.sendLoop]
      split_ifs
      · exact hnext.trans hnext.inv.setDelsnd
      · exact hnext
      · exact hnext.trans (ih hnext.inv)
      · exact Advances.refl h
      · exact ih h
      · exact h.setDelsnd
      · exact Advances.refl h

theorem Inv.sendMuch (h : a.Inv top) : Advances top a (a.sendMuch env force) := by
  rw [TcpAgent.sendMuch]
  split_ifs
  · exact Advances.refl h
  · exact h.sendLoop

/-- A change of other fields, and then sending. -/
theorem Inv.sendMuch_of_core (h : a.Inv top) (hcore : b.core = a.core)
    (hfrto : b.frto ≠ 0 →
      b.recover ≤ b.maxseq ∧ (b.cfg.frtoEnabled = true ∨ b.cfg.sfrtoEnabled = true)) :
    Advances top a (b.sendMuch env force) :=
  (h.of_core hcore hfrto).trans (h.of_core hcore hfrto).inv.sendMuch

theorem Inv.sendmsg (h : a.Inv top) (nbytes : ℤ) : Advances top a (a.sendmsg env nbytes) :=
  h.sendMuch_of_core rfl h.frto_on

theorem Inv.advanceby (h : a.Inv top) (delta : ℤ) : Advances top a (a.advanceby env delta) :=
  h.sendMuch_of_core rfl h.frto_on

theorem Inv.advance (h : a.Inv top) (newseq : ℤ) : Advances top a (a.advance env newseq) := by
  rw [TcpAgent.advance]
  split_ifs
  · exact h.advanceby _
  · exact h.advanceby _

/-- Resuming one past the last packet acked. -/
theorem Inv.resetRtxTimer (h : a.Inv top) : Advances top a a.resetRtxTimer := by
  have hlt := h.ack_lt
  have hmax := h.le_maxseq
  refine ⟨⟨h.lastAck_eq, h.ack_ge, h.ack_le, le_rfl, ?_, h.frto_on, h.sent⟩, rfl, le_rfl, le_rfl⟩
  show a.highestAck + 1 ≤ a.maxseq + 1
  omega

theorem Inv.sendOne (h : a.Inv top) : Advances top a (a.sendOne env) := by
  rw [TcpAgent.sendOne]
  split_ifs
  · exact h.sendNext env
  · exact Advances.refl h

theorem Inv.lossQuickStart (h : a.Inv top) (env : Env) :
    Advances top a (a.lossQuickStart env).1 := by
  have hack := h.ack_ge
  rw [TcpAgent.lossQuickStart]
  split_ifs
  · have hclear := h.of_core (b := { a with qsWindow := 0 }) rfl h.frto_on
    refine hclear.trans (hclear.inv.output env ?_)
    rw [h.lastAck_eq]
    omega
  · exact Advances.refl h

theorem Inv.tahoeAction (h : a.Inv top) : Advances top a (a.tahoeAction env) := by
  have hrec := h.of_core (b := { a with recover := a.maxseq }) rfl
    fun hne => ⟨le_rfl, (h.frto_on hne).2⟩
  have hloss := hrec.trans (hrec.inv.lossQuickStart env)
  rw [TcpAgent.tahoeAction]
  dsimp only
  split_ifs
  · exact hloss.trans hloss.inv.resetRtxTimer
  · have hact := hloss.trans (hloss.inv.of_core
      (b := { ({ a with recover := a.maxseq }.lossQuickStart env).1 with
        lastCwndAction := .dupack }) rfl hloss.inv.frto_on)
    exact hact.trans hact.inv.resetRtxTimer

theorem Inv.dupackAction (h : a.Inv top) : Advances top a (a.dupackAction env) := by
  rw [TcpAgent.dupackAction]
  split_ifs
  · exact h.tahoeAction
  · have hact := h.of_core (b := { a with lastCwndAction := .dupack }) rfl h.frto_on
    exact hact.trans hact.inv.resetRtxTimer
  · exact Advances.refl h
  · exact h.tahoeAction

theorem Inv.recvDupack (h : a.Inv top) (env : Env) : Advances top a (a.recvDupack env) := by
  have hdup := h.of_core (b := { a with dupacks := a.dupacks + 1 }) rfl h.frto_on
  rw [TcpAgent.recvDupack]
  dsimp only
  split_ifs
  · exact hdup.trans hdup.inv.dupackAction
  · exact hdup.trans hdup.inv.sendOne
  · exact hdup

theorem Inv.tcpEln (h : a.Inv top) (ack : ℤ) : Advances top a (a.tcpEln env ack) := by
  have hack := h.ack_ge
  have hdup := h.of_core (b := { a with dupacks := a.dupacks + 1 }) rfl h.frto_on
  rw [TcpAgent.tcpEln]
  dsimp only
  split_ifs
  · have hout := hdup.trans (hdup.inv.output env (show 0 ≤ a.lastAck + 1 by
      rw [h.lastAck_eq]
      omega))
    exact hout.trans (hout.inv.of_core rfl hout.inv.frto_on)
  · exact hdup.trans hdup.inv.sendMuch

theorem Inv.newack (h : a.Inv top) (hlt : a.lastAck < seqno) (hle : seqno ≤ a.maxseq)
    (htop : seqno ≤ top) : Advances top a (a.newack seqno) := by
  have hlast := h.lastAck_eq
  have hge := h.ack_ge
  have hack := h.ack_lt
  have hmax := h.le_maxseq
  refine ⟨⟨rfl, ?_, htop, ?_, ?_, h.frto_on, h.sent⟩, rfl, ?_, le_rfl⟩
  · show -1 ≤ seqno
    omega
  · show seqno + 1 ≤ if a.tSeqno < seqno + 1 then seqno + 1 else a.tSeqno
    split_ifs <;> omega
  · show (if a.tSeqno < seqno + 1 then seqno + 1 else a.tSeqno) ≤ a.maxseq + 1
    split_ifs <;> omega
  · show a.highestAck ≤ seqno
    omega

/-- F-RTO leaves the order as it is, unless it goes back below the highest ack. -/
theorem Inv.frtoNewack (h : a.Inv top)
    (hok : a.frto = 1 → a.highestAck ≤ a.recover ∨
      (a.highestAck : ℚ) + a.cfg.wnd ≤ a.recover + 1 ∨ a.curseq ≤ a.recover + 1) :
    Advances top a a.frtoNewack := by
  have hoff : Advances top a { a with frto := 0 } := h.of_core rfl fun hne => absurd rfl hne
  rw [TcpAgent.frtoNewack]
  split_ifs with hfrto hnothing hwhole hsecond
  · exact hoff
  · exact hoff
  · -- the recovery point is above the ack, and was sent
    have hrec := h.frto_on (by omega)
    have hmax := hrec.1
    have hle : a.highestAck ≤ a.recover := by
      rcases hok hfrto with hle | hno
      · exact hle
      · exact absurd hno hnothing
    refine ⟨⟨h.lastAck_eq, h.ack_ge, h.ack_le, ?_, ?_, fun _ => hrec, h.sent⟩, rfl, le_rfl, le_rfl⟩
    · show a.highestAck + 1 ≤ a.recover + 1
      omega
    · show a.recover + 1 ≤ a.maxseq + 1
      omega
  · exact h.of_core rfl fun hne => absurd rfl hne
  · exact Advances.refl h

theorem Inv.recvNewackHelper (h : a.Inv top) (hlt : a.lastAck < seqno) (hle : seqno ≤ a.maxseq)
    (htop : seqno ≤ top) (hok : a.frto = 1 → seqno ≤ a.recover ∨
      (seqno : ℚ) + a.cfg.wnd ≤ a.recover + 1 ∨ a.curseq ≤ a.recover + 1) :
    Advances top a (a.recvNewackHelper seqno) := by
  have hack := h.newack hlt hle htop
  rw [TcpAgent.recvNewackHelper]
  split_ifs
  · have hclear := hack.inv.of_core (b := { a.newack seqno with qsWindow := 0 }) rfl
      hack.inv.frto_on
    exact (hack.trans hclear).trans (hclear.inv.frtoNewack hok)
  · exact hack.trans (hack.inv.frtoNewack hok)

theorem Inv.ecnAction (h : a.Inv top) (seqno : ℤ) : Advances top a (a.ecnAction seqno) := by
  rw [TcpAgent.ecnAction]
  split_ifs
  · exact h.of_core rfl fun hne => ⟨le_rfl, (h.frto_on hne).2⟩
  · exact Advances.refl h

theorem Inv.recvFrtoHelper (h : a.Inv top) (seqno : ℤ) :
    Advances top a (a.recvFrtoHelper seqno) := by
  have hreset := h.resetRtxTimer
  rw [TcpAgent.recvFrtoHelper]
  split_ifs
  · exact hreset.trans (hreset.inv.of_core rfl fun hne => absurd rfl hne)
  · exact Advances.refl h

/-- Quick start changes its own flags only. -/
theorem recvQuickStart_facts (a : TcpAgent) (env : Env) (seqno : ℤ) :
    (a.recvQuickStart env seqno).core = a.core ∧
      (a.recvQuickStart env seqno).curseq = a.curseq ∧
      (a.recvQuickStart env seqno).frto = a.frto ∧
      (a.recvQuickStart env seqno).recover = a.recover := by
  have hend : ∀ b : TcpAgent, b.endQuickStart.core = b.core ∧ b.endQuickStart.curseq = b.curseq ∧
      b.endQuickStart.frto = b.frto ∧ b.endQuickStart.recover = b.recover := by
    intro b
    exact ⟨rfl, rfl, rfl, rfl⟩
  have hprocess : ∀ b : TcpAgent, ∀ granted, (b.processQuickStart granted).core = b.core ∧
      (b.processQuickStart granted).curseq = b.curseq ∧
      (b.processQuickStart granted).frto = b.frto ∧
      (b.processQuickStart granted).recover = b.recover := by
    intro b granted
    exact ⟨rfl, rfl, rfl, rfl⟩
  rw [recvQuickStart]
  split_ifs
  · exact hprocess _ _
  · exact hend a
  · exact hprocess _ _
  · exact ⟨rfl, rfl, rfl, rfl⟩

theorem Inv.recvQuickStart (h : a.Inv top) (env : Env) (seqno : ℤ) :
    Advances top a (a.recvQuickStart env seqno) := by
  obtain ⟨hcore, -, hfrto, hrec⟩ := recvQuickStart_facts a env seqno
  refine h.of_core hcore fun hne => ?_
  have hmax := hcore
  simp only [core, Prod.mk.injEq] at hmax
  rw [hrec, hmax.1, hmax.2.2.1]
  exact h.frto_on (hfrto ▸ hne)

theorem Inv.recvStart (h : a.Inv top) (env : Env) (seqno : ℤ) :
    Advances top a (a.recvStart env seqno) := by
  have hquick := h.recvQuickStart env seqno
  rw [TcpAgent.recvStart]
  split_ifs
  · have hecn := hquick.inv.ecnAction seqno
    exact (hquick.trans hecn).trans (hecn.inv.recvFrtoHelper seqno)
  · exact hquick.trans (hquick.inv.recvFrtoHelper seqno)

/-- What a new ack finds after `recvStart`: the recovery point may have been moved to
`maxseq_`, and it has been if an ack beyond it carries a congestion indication. -/
theorem recvStart_of_new (env : Env) (h : a.lastAck < seqno) :
    (a.recvStart env seqno).core = a.core ∧ (a.recvStart env seqno).curseq = a.curseq ∧
      (a.recvStart env seqno).frto = a.frto ∧
      ((a.recvStart env seqno).recover = a.maxseq ∨
        ((a.recvStart env seqno).recover = a.recover ∧
          ¬(env.ecnecho = true ∧ a.cfg.ecn = true ∧ a.recover < seqno))) := by
  obtain ⟨hcore, hcur, hfrto, hrec⟩ := recvQuickStart_facts a env seqno
  rw [TcpAgent.recvStart]
  generalize a.recvQuickStart env seqno = b at hcore hcur hfrto hrec ⊢
  rw [← hcore, ← hcur, ← hfrto, ← hrec]
  simp only [core, Prod.mk.injEq] at hcore
  obtain ⟨hcfg, -, hmax, -, hlast, -⟩ := hcore
  rw [← hmax, ← hcfg]
  have hne : seqno ≠ b.lastAck := by omega
  have hhelper : ∀ c : TcpAgent, c.lastAck = b.lastAck → c.recvFrtoHelper seqno = c := by
    intro c hc
    rw [TcpAgent.recvFrtoHelper, if_neg]
    rintro ⟨heq, -⟩
    exact hne (heq.trans hc)
  have hecn : (b.ecnAction seqno).lastAck = b.lastAck := by
    rw [TcpAgent.ecnAction]
    split_ifs <;> rfl
  split_ifs with hmark
  · rw [hhelper _ hecn, TcpAgent.ecnAction]
    split_ifs with hrecover
    · exact ⟨rfl, rfl, rfl, Or.inl rfl⟩
    · refine ⟨rfl, rfl, rfl, Or.inr ⟨rfl, ?_⟩⟩
      rintro ⟨-, -, hlt⟩
      exact hrecover (Or.inl hlt)
  · rw [hhelper _ rfl]
    refine ⟨rfl, rfl, rfl, Or.inr ⟨rfl, ?_⟩⟩
    rintro ⟨hecho, hecn, -⟩
    exact hmark ⟨hecho, hecn⟩

theorem Inv.recvEnd (h : a.Inv top) : Advances top a (a.recvEnd env seqno) := by
  rw [TcpAgent.recvEnd]
  split_ifs
  · exact h.sendMuch
  · exact Advances.refl h

/-- The ack of a segment that was sent, unless it rewinds. -/
theorem Inv.recv (h : a.Inv top) (hle : seqno ≤ a.maxseq) (htop : seqno ≤ top)
    (hok : ¬a.Rewinds env seqno) : Advances top a (a.recv env seqno) := by
  have hstart := h.recvStart env seqno
  rw [TcpAgent.recv]
  split_ifs with hnew hdup heln
  · have hlt : a.lastAck < seqno := by
      have hack := hstart.ack_le
      rw [← h.lastAck_eq, ← hstart.inv.lastAck_eq] at hack
      exact hack.trans_lt hnew
    obtain ⟨hcore, hcur, hfrto, hrec⟩ := recvStart_of_new env hlt
    have hle' : seqno ≤ (a.recvStart env seqno).maxseq := hle.trans hstart.max_le
    have hhelper := hstart.inv.recvNewackHelper hnew hle' htop (by
      intro hone
      by_contra hbad
      push Not at hbad
      obtain ⟨hbeyond, hwnd, hdata⟩ := hbad
      rcases hrec with hmax | ⟨hrec, hmark⟩
      · exact Int.not_lt.mpr hle (hmax ▸ hbeyond)
      · rw [hrec] at hbeyond hwnd hdata
        rw [hcur] at hdata
        rw [hstart.cfg_eq] at hwnd
        exact hok ⟨hfrto ▸ hone, hlt, hbeyond, fun he => hmark ⟨he.1, he.2, hbeyond⟩, hwnd, hdata⟩)
    exact (hstart.trans hhelper).trans hhelper.inv.recvEnd
  · exact hstart.trans (hstart.inv.tcpEln seqno)
  · have hdupack := hstart.trans (hstart.inv.recvDupack env)
    exact hdupack.trans hdupack.inv.recvEnd
  · exact hstart.trans hstart.inv.recvEnd

theorem Inv.timeoutRecover (h : a.Inv top) : Advances top a a.timeoutRecover := by
  rw [TcpAgent.timeoutRecover]
  split_ifs
  · exact Advances.refl h
  · exact h.of_core rfl fun hne => ⟨le_rfl, (h.frto_on hne).2⟩
  -- F-RTO starts where it is enabled
  · exact h.of_core rfl fun _ => ⟨le_rfl, ‹_›⟩
  · exact h.of_core rfl fun hne => ⟨le_rfl, (h.frto_on hne).2⟩
  · exact h.of_core rfl fun _ => ⟨le_rfl, ‹_›⟩
  · exact h.of_core rfl fun hne => ⟨le_rfl, (h.frto_on hne).2⟩

theorem Inv.timeout (h : a.Inv top) : Advances top a (a.timeout env) := by
  have hoff : Advances top a { a with frto := 0, qsApproved := false } :=
    h.of_core rfl fun hne => absurd rfl hne
  have hrec := hoff.trans hoff.inv.timeoutRecover
  have hreset := hrec.trans hrec.inv.resetRtxTimer
  exact hreset.trans (hreset.inv.sendMuch_of_core rfl hreset.inv.frto_on)

theorem Inv.timeoutNonrtx (h : a.Inv top) : Advances top a (a.timeoutNonrtx env) :=
  h.sendMuch_of_core rfl h.frto_on

end TcpAgent

end ComputerNetworking.Tcp
