import ComputerNetworking.Dsdv.Wire

/-!
# The words of an agent and its numbers

`Wire.makeUpdate` works on machine words and writes bytes, `DSDVAgent.makeUpdate` works on
numbers and makes an `Update`. Where no address is negative and the agent's number does not
overflow, the two do the same, and a receiver reads from the bytes what the `Update` lists
(`same_makeUpdate`).
-/

set_option autoImplicit false

namespace ComputerNetworking.Dsdv.Wire

open ComputerNetworking.Foundations.ByteRecords

/-- The entry with numbers for its words. -/
def RtableWords.toEnt (e : RtableWords) : RtableEnt where
  dst := e.dst.toNat
  hop := e.hop.toNat
  metric := e.metric.toNat
  seqnum := e.seqnum.toNat
  advertiseOkAt := e.advertiseOkAt
  advertSeqnum := e.advertSeqnum
  advertMetric := e.advertMetric
  lastAdvertisedMetric := e.lastAdvertisedMetric.toNat
  changedAt := e.changedAt
  newSeqnumAt := e.newSeqnumAt
  wst := e.wst

/-- The agent with numbers for its words. -/
def AgentWords.toAgent (cfg : Config) (a : AgentWords) : DSDVAgent where
  cfg := cfg
  myaddr := a.myaddr.toNat
  table := a.table.map RtableWords.toEnt
  seqno := a.seqno.toNat

/-- What is said of one destination, in numbers. -/
def Listed.toAdvert (l : Listed) : Advert := ⟨l.dst.toNat, l.metric.toNat, l.seqnum.toNat⟩

/-- The two calls end alike. -/
inductive Same (cfg : Config) : Except Failure (AgentWords × Option (List Byte)) →
    Except Failure (DSDVAgent × Option Update) → Prop where
  | failed (f : Failure) : Same cfg (.error f) (.error f)
  | silent (a : AgentWords) : Same cfg (.ok (a, none)) (.ok (a.toAgent cfg, none))
  | sent (a : AgentWords) {bytes : List Byte} {u : Update}
      (h : (readUpdate bytes).map (List.map Listed.toAdvert) = some u.adverts) :
      Same cfg (.ok (a, some bytes)) (.ok (a.toAgent cfg, some u))

variable {a : AgentWords} {cfg : Config} {full : Bool} {now : ℚ} {t : List RtableWords}

theorem filter_toEnt {included : RtableEnt → Bool}
    (h : ∀ e : RtableWords, included e.toEnt = decide (Due full now e)) (t : List RtableWords) :
    (t.map RtableWords.toEnt).filter included =
      (t.filter (Due full now)).map RtableWords.toEnt := by
  rw [List.filter_map]
  congr 1
  exact List.filter_congr fun e _ => h e

theorem same_packet (a : AgentWords) (cfg : Config) (full : Bool) (now : ℚ) (n : ℕ)
    (hm : ∀ e ∈ a.table, e.metric.toNat ≤ BIG) {included : RtableEnt → Bool}
    (h : ∀ e : RtableWords, included e.toEnt = decide (Due full now e)) :
    Same cfg (packet a full n now)
      (if n = 0 then .ok (a.toAgent cfg, none) else (a.toAgent cfg).pack full n included) := by
  have hfilter : (a.toAgent cfg).table.filter included =
      (a.table.filter (Due full now)).map RtableWords.toEnt := filter_toEnt h a.table
  by_cases hn : n = 0
  · rw [packet, if_pos (by exact_mod_cast hn), if_pos hn]
    exact .silent a
  · rw [if_neg hn, DSDVAgent.pack, hfilter, List.length_map, List.length_map]
    by_cases hlen : n = (a.table.filter (Due full now)).length
    · have hne : ¬a.table.filter (Due full now) = [] := fun hnil => by
        rw [hnil] at hlen
        exact hn hlen
      rw [if_pos hlen, hlen, packet_eq, if_neg hne]
      have hafter : (a.toAgent cfg).table.map (fun prte => if included prte then
            { prte with lastAdvertisedMetric := prte.metric, advertSeqnum := false,
                        advertMetric := if full then false else prte.advertMetric } else prte) =
          (a.table.map fun e => if Due full now e then advertised full e else e).map
            RtableWords.toEnt := by
        rw [AgentWords.toAgent, List.map_map, List.map_map]
        refine List.map_congr_left fun e _ => ?_
        by_cases hdue : Due full now e
        · rw [Function.comp_apply, Function.comp_apply, h, if_pos (decide_eq_true hdue),
            if_pos hdue]
          rfl
        · rw [Function.comp_apply, Function.comp_apply, h, if_neg (by simpa using hdue),
            if_neg hdue]
      dsimp only
      rw [hafter]
      refine .sent { a with
        table := a.table.map fun e => if Due full now e then advertised full e else e } ?_
      rw [readUpdate, readCounted_writeCounted, Option.map_some, Update.adverts]
      · dsimp only
        rw [List.length_map, List.map_take, List.map_map, List.map_map]
        rfl
      · intro l hl
        obtain ⟨e, he, rfl⟩ := List.mem_map.mp hl
        exact reads_listed (hm e (List.mem_of_mem_filter he))
    · have hne : (n : ℤ) ≠ 0 := by exact_mod_cast hn
      rw [if_neg hlen, packet, if_neg hne, writeEntries_eq]
      dsimp only
      rw [if_neg (by omega)]
      exact .failed _

theorem toInt_of_nonneg {w : Word} (h : 0 ≤ w.toInt) : w.toInt = w.toNat := by
  have hlt := w.isLt
  rw [BitVec.toInt_eq_toNat_cond] at h ⊢
  split at h
  · rename_i hhalf
    rw [if_pos hhalf]
  · omega

/-- Where no address is negative, words are in the order of their numbers. -/
theorem toNat_lt {e e' : RtableWords} (h : 0 ≤ e.dst.toInt) (h' : 0 ≤ e'.dst.toInt)
    (hlt : e.dst.slt e'.dst) : e.dst.toNat < e'.dst.toNat := by
  rw [BitVec.slt_iff_toInt_lt, toInt_of_nonneg h, toInt_of_nonneg h'] at hlt
  exact_mod_cast hlt

/-- The agent's own entry takes the place of the old one. -/
theorem put_own {pre post : List RtableEnt} {e w : RtableEnt} (hpre : ∀ x ∈ pre, x.dst < w.dst)
    (he : e.dst = w.dst) : RoutingTable.put w (pre ++ e :: post) = pre ++ w :: post := by
  induction pre with
  | nil =>
      rw [List.nil_append, List.nil_append, RoutingTable.put, if_pos he]
  | cons x pre ih =>
      have hx := hpre x List.mem_cons_self
      rw [List.cons_append, RoutingTable.put, if_neg hx.ne, if_neg (not_lt.mpr hx.le),
        ih fun y hy => hpre y (List.mem_cons_of_mem x hy)]
      rfl

theorem advance_toAgent (hs : Sorted a.table) (hpos : ∀ e ∈ a.table, 0 ≤ e.dst.toInt)
    (hown : ∃ e ∈ a.table, e.dst = a.myaddr) (hseq : a.seqno.toNat + 2 < 2 ^ 32) :
    (a.toAgent cfg).advance now =
      AgentWords.toAgent cfg { a with seqno := a.seqno + 2, table := current a true now } := by
  have hseqno : (a.seqno + 2).toNat = a.seqno.toNat + 2 := by
    rw [BitVec.toNat_add]
    exact Nat.mod_eq_of_lt hseq
  have hentry : (ownEntry a now).toEnt =
      { dst := a.myaddr.toNat, hop := a.myaddr.toNat, metric := 0, seqnum := a.seqno.toNat + 2,
        advertiseOkAt := 0, advertSeqnum := true, changedAt := now, newSeqnumAt := now,
        wst := 0 } := by
    rw [← hseqno]
    rfl
  obtain ⟨pre, e, post, hsplit, hdst, -, hcurrent⟩ := current_own hs hown now
  have hpre : ∀ x ∈ pre.map RtableWords.toEnt, x.dst < (ownEntry a now).toEnt.dst := by
    intro x hx
    obtain ⟨y, hy, rfl⟩ := List.mem_map.mp hx
    rw [Sorted, hsplit] at hs
    rw [hsplit] at hpos
    have hlt := (List.pairwise_append.mp hs).2.2 y hy e List.mem_cons_self
    have hnat := toNat_lt (hpos y (List.mem_append_left _ hy))
      (hpos e (List.mem_append_right _ List.mem_cons_self)) hlt
    exact hnat.trans_eq (congrArg BitVec.toNat hdst)
  rw [DSDVAgent.advance, AgentWords.toAgent, AgentWords.toAgent, hcurrent, hseqno]
  dsimp only
  rw [← hentry, hsplit, List.map_append, List.map_append, List.map_cons, List.map_cons,
    put_own hpre (congrArg BitVec.toNat hdst)]

/-- The agent with words and the agent with numbers make the same update. -/
theorem same_makeUpdate (a : AgentWords) (cfg : Config) (periodic : Bool) (now : ℚ)
    (hs : Sorted a.table) (hm : ∀ e ∈ a.table, e.metric.toNat ≤ BIG)
    (hpos : ∀ e ∈ a.table, 0 ≤ e.dst.toInt) (hown : ∃ e ∈ a.table, e.dst = a.myaddr)
    (hseq : a.seqno.toNat + 2 < 2 ^ 32) :
    Same cfg (makeUpdate a periodic now) ((a.toAgent cfg).makeUpdate periodic now) := by
  have hchanged : (a.toAgent cfg).table.countP (fun prte =>
      (prte.advertSeqnum || prte.advertMetric) && prte.advertiseOkAt ≤ now) =
        a.table.countP (changed now) := List.countP_map
  have hlength : (a.toAgent cfg).table.length = a.table.length := List.length_map _
  have hunadvertiseable : (a.toAgent cfg).table.countP (fun prte => prte.advertiseOkAt > now) =
      a.table.countP (fun e => e.advertiseOkAt > now) := List.countP_map
  rw [DSDVAgent.makeUpdate]
  dsimp only
  rw [hchanged, hlength, hunadvertiseable]
  cases hfull : full a periodic now with
  | true =>
      have hdue : a.table.length - a.table.countP (fun e => e.advertiseOkAt > now) =
          a.table.countP (Due true now) := by
        have hsub := length_sub_unadvertiseable a.table now
        omega
      have hfull' := hfull
      rw [full] at hfull'
      rw [makeUpdate_full hown hfull, if_pos hfull', hdue, advance_toAgent hs hpos hown hseq]
      refine same_packet { a with seqno := a.seqno + 2, table := current a true now } cfg true now _
        (metric_current true _ hm) fun e => ?_
      rw [Bool.eq_iff_iff, decide_eq_true_iff, due_true]
      simp [RtableWords.toEnt]
  | false =>
      have hfull' := hfull
      rw [full] at hfull'
      rw [makeUpdate, hfull, if_neg (by decide), if_neg (by rw [hfull']; decide)]
      refine same_packet a cfg false now _ hm fun e => ?_
      rw [Bool.eq_iff_iff, decide_eq_true_iff, Due, Bool.and_eq_true, Bool.or_eq_true,
        decide_eq_true_iff, and_comm]
      simp [RtableWords.toEnt]

end ComputerNetworking.Dsdv.Wire
