import Collectives.Proofs.Orders
import Collectives.Proofs.PairedPlans

/-!
# Dissemination as a barrier

A send of a dissemination waits for the receive one step before it, and a receive for nothing but
its message. So what has to come before a receive is a single chain of messages over consecutive
distances, and a rank hears exactly of those ranks whose distance from it is such a sum. Where every
rank works in the order of its list, a rank hears of every other.
-/

namespace Collectives

namespace Schedule

/-- A receive of the rank `listener` comes after a send of the rank `speaker`. -/
def Hears (s : Schedule) (before : OpId → OpId → Prop) (listener speaker : Nat) : Prop :=
  ∃ x ∈ s.sendsOf speaker, ∃ y ∈ s.recvsOf listener, Relation.TransGen before x y

/-- What directly has to come before an operation where every rank also works in the order of its
list. -/
def CausesInTurn (s : Schedule) (earlier later : OpId) : Prop :=
  s.Causes earlier later ∨ (earlier.rank = later.rank ∧ earlier.index < later.index)

/-- There is an order in which the rank `first` has run all its operations when `second` has not yet
run any. -/
def CanFinishBefore (s : Schedule) (first second : Nat) : Prop :=
  ∃ done rest, s.Order (done ++ rest) ∧
    (∀ id, (s.op? id).isSome = true → id.rank = first → id ∈ done) ∧
    ∀ id ∈ done, id.rank ≠ second

/-- A rank that hears of another cannot finish before that one starts. -/
theorem Hears.not_canFinishBefore {s : Schedule} {listener speaker : Nat}
    (h : s.Hears s.Causes listener speaker) : ¬s.CanFinishBefore listener speaker := by
  obtain ⟨x, hx, y, hy, hxy⟩ := h
  obtain ⟨hspeaker, -⟩ := mem_sendsOf.1 hx
  obtain ⟨hlistener, op, hop, -⟩ := mem_recvsOf.1 hy
  rintro ⟨done, rest, horder, hfirst, hsecond⟩
  have hdone : y ∈ done := hfirst y (Option.isSome_of_eq_some hop) hlistener
  exact hsecond x (horder.mem_of_mem rfl hdone hxy) hspeaker

/-- What has to run before a rank has run all its operations, these included. -/
def NeededBy (s : Schedule) (rank : Nat) (id : OpId) : Prop :=
  ∃ target : OpId, target.rank = rank ∧ Relation.ReflTransGen s.Causes id target

/-- A rank whose operations wait for none of another rank can finish before that one starts: what it
needs can run first. -/
theorem canFinishBefore {s : Schedule} (hs : ∃ order, s.Order order) {first second : Nat}
    (hne : first ≠ second)
    (h : ∀ x y, Relation.TransGen s.Causes x y → y.rank = first → x.rank ≠ second) :
    s.CanFinishBefore first second := by
  classical
  obtain ⟨order, horder⟩ := hs
  have hclosed : ∀ cause id, s.Causes cause id → s.NeededBy first id → s.NeededBy first cause := by
    rintro cause id hcause ⟨target, htarget, hle⟩
    exact ⟨target, htarget, hle.head hcause⟩
  refine ⟨_, _, horder.hoist hclosed, ?_, ?_⟩
  · intro id hid hrank
    have hneeded : s.NeededBy first id := ⟨id, hrank, .refl⟩
    exact List.mem_filter.2 ⟨(horder.complete id).2 hid, decide_eq_true hneeded⟩
  · intro id hid
    obtain ⟨target, htarget, hle⟩ := of_decide_eq_true (List.mem_filter.1 hid).2
    rcases Relation.reflTransGen_iff_eq_or_transGen.1 hle with heq | hlt
    · rw [← heq, htarget]
      exact hne
    · exact h id target hlt htarget

end Schedule

namespace Dissemination

theorem getElem?_distancesFrom (step ranks k : Nat) :
    (distancesFrom step ranks)[k]? =
      if 2 ^ (step + k) < ranks then some (2 ^ (step + k)) else none := by
  fun_induction distancesFrom step ranks generalizing k with
  | case1 step hlt ih =>
    rw [Nat.one_shiftLeft] at hlt ⊢
    cases k with
    | zero => simp [hlt]
    | succ k => rw [List.getElem?_cons_succ, ih, Nat.add_assoc, Nat.add_comm 1]
  | case2 step hge =>
    rw [Nat.one_shiftLeft] at hge
    have hle : 2 ^ step ≤ 2 ^ (step + k) := Nat.pow_le_pow_right (by omega) (by omega)
    rw [if_neg (by omega), List.getElem?_nil]

/-- The schedule of a dissemination. -/
def built (size : Nat) (tag : Tag) (ranks : Nat) : Schedule := .onWorld ranks (plan size tag ranks)

/-- The rank `b` lies ahead of `a` by the distances of some consecutive steps, which are
`2 ^ first`, ..., `2 ^ last`. -/
def Reaches (ranks a b : Nat) : Prop :=
  ∃ last, 2 ^ last < ranks ∧ ∃ first ≤ last, (a + (2 ^ (last + 1) - 2 ^ first)) % ranks = b

theorem reaches_iff {ranks a b : Nat} :
    Reaches ranks a b ↔ ∃ last < ranks, 2 ^ last < ranks ∧
      ∃ first < last + 1, (a + (2 ^ (last + 1) - 2 ^ first)) % ranks = b := by
  constructor
  · rintro ⟨last, hlast, first, hle, h⟩
    have hlt := @Nat.lt_two_pow_self last
    exact ⟨last, by omega, hlast, first, by omega, h⟩
  · rintro ⟨last, -, hlast, first, hlt, h⟩
    exact ⟨last, hlast, first, by omega, h⟩

instance (ranks a b : Nat) : Decidable (Reaches ranks a b) := decidable_of_iff _ reaches_iff.symm

section Built

variable {size : Nat} {tag : Tag} {ranks rank k : Nat}

theorem getElem?_pairs {pair : Pair} :
    (pairs size tag ranks rank)[k]? = some pair ↔ 2 ^ k < ranks ∧
      pair = ⟨(rank + ranks - 2 ^ k) % ranks, size, (rank + 2 ^ k) % ranks, size, tag⟩ := by
  rw [pairs, Pair.shifts, List.getElem?_map, List.getElem?_map, getElem?_distancesFrom,
    Nat.zero_add]
  split
  case isTrue hlt => simp [hlt, eq_comm]
  case isFalse hge => simp [hge]

theorem paired (size : Nat) (tag : Tag) (ranks : Nat) :
    PairedPlans ranks 0 sendWaits (fun _ => []) (pairs size tag ranks) (plan size tag ranks) where
  flatten := flatten_plan size tag ranks
  sends_back := sendWaits_earlier
  recvs_back := by simp
  mirrored := mirrored_pairs size tag ranks

theorem schedule_eq (size : Nat) (tag : Tag) (h : 0 < ranks) :
    (exchange size tag).schedule ranks = .ok (built size tag ranks) :=
  Pattern.schedule_eq h rfl (paired size tag ranks).coherent

theorem op?_send (hrank : rank < ranks) (hk : 2 ^ k < ranks) :
    ∃ requires, (built size tag ranks).op? ⟨rank, 2 * k⟩ =
      some ⟨.send ((rank + 2 ^ k) % ranks) size tag, requires⟩ :=
  (paired size tag ranks).op?_send hrank (getElem?_pairs.2 ⟨hk, rfl⟩)

theorem op?_recv (hrank : rank < ranks) (hk : 2 ^ k < ranks) :
    ∃ requires, (built size tag ranks).op? ⟨rank, 2 * k + 1⟩ =
      some ⟨.recv ((rank + ranks - 2 ^ k) % ranks) size tag, requires⟩ :=
  (paired size tag ranks).op?_recv hrank (getElem?_pairs.2 ⟨hk, rfl⟩)

theorem cases_op {id : OpId} {op : Op} (hop : (built size tag ranks).op? id = some op) :
    id.rank < ranks ∧ ∃ k, 2 ^ k < ranks ∧ (id.index = 2 * k ∨ id.index = 2 * k + 1) := by
  obtain ⟨hrank, ⟨k, pair, hpair, hindex, -⟩ | ⟨k, pair, hpair, hindex, -⟩ | ⟨-, -, -, hcost, -⟩⟩ :=
    (paired size tag ranks).cases_op hop
  · exact ⟨hrank, k, (getElem?_pairs.1 hpair).1, Or.inl hindex⟩
  · exact ⟨hrank, k, (getElem?_pairs.1 hpair).1, Or.inr hindex⟩
  · exact absurd rfl hcost

/-- A receive directly comes after the send that it is matched with, and after nothing else. -/
theorem causes_recv (hrank : rank < ranks) (hk : 2 ^ k < ranks) {cause : OpId} :
    (built size tag ranks).Causes cause ⟨rank, 2 * k + 1⟩ ↔
      cause.rank < ranks ∧ (cause.rank + 2 ^ k) % ranks = rank ∧ cause.index = 2 * k := by
  obtain ⟨source, index⟩ := cause
  have hbehind : source = (rank + ranks - 2 ^ k) % ranks ↔
      source < ranks ∧ (source + 2 ^ k) % ranks = rank := by
    constructor
    · rintro rfl
      have hsource := Nat.mod_lt (rank + ranks - 2 ^ k) (show ranks > 0 by omega)
      exact ⟨hsource, (ahead_iff_behind hsource hrank hk).2 rfl⟩
    · rintro ⟨hsource, hahead⟩
      exact ((ahead_iff_behind hsource hrank hk).1 hahead).symm
  refine ((paired size tag ranks).causes_recv_iff hrank (getElem?_pairs.2 ⟨hk, rfl⟩)).trans ?_
  simp [stride, hbehind, and_assoc]

/-- A send directly comes after the receive one step before it, and after nothing else. -/
theorem causes_send (hrank : rank < ranks) (hk : 2 ^ k < ranks) {cause : OpId} :
    (built size tag ranks).Causes cause ⟨rank, 2 * k⟩ ↔
      k ≠ 0 ∧ cause = ⟨rank, 2 * k - 1⟩ := by
  refine ((paired size tag ranks).causes_send_iff hrank (getElem?_pairs.2 ⟨hk, rfl⟩)).trans ?_
  rw [sendWaits]
  split
  case isTrue hzero => simp [hzero]
  case isFalse hk => simp [hk]

/-- The messages of consecutive steps, each sent by the rank that received the one before. -/
theorem transGen_of_distance {a b first last : Nat} (ha : a < ranks) (hle : first ≤ last)
    (hlast : 2 ^ last < ranks) (hb : (a + (2 ^ (last + 1) - 2 ^ first)) % ranks = b) :
    Relation.TransGen (built size tag ranks).Causes ⟨a, 2 * first⟩ ⟨b, 2 * last + 1⟩ := by
  subst hb
  have hrank : ∀ x, x % ranks < ranks := fun x => Nat.mod_lt x (by omega)
  induction last, hle using Nat.le_induction with
  | base =>
    rw [show 2 ^ (first + 1) - 2 ^ first = 2 ^ first by rw [Nat.pow_succ]; omega]
    exact .single ((causes_recv (hrank _) hlast).2 ⟨ha, rfl, rfl⟩)
  | succ last hle ih =>
    have hpow : 2 ^ first ≤ 2 ^ (last + 1) := Nat.pow_le_pow_right (by omega) (by omega)
    have hdouble : 2 ^ (last + 1 + 1) = 2 * 2 ^ (last + 1) := by rw [Nat.pow_succ, Nat.mul_comm]
    have hbefore := ih (by rw [Nat.pow_succ] at hlast; omega)
    have hsend := (@causes_send size tag _ _ _ (hrank (a + (2 ^ (last + 1) - 2 ^ first))) hlast
      _).2 ⟨Nat.succ_ne_zero last, rfl⟩
    refine (hbefore.tail hsend).tail ((causes_recv (hrank _) hlast).2 ⟨hrank _, ?_, rfl⟩)
    rw [Nat.mod_add_mod]
    congr 1
    omega

/-- What has to come before a receive is on the rank that it receives from, or has to come before
the receive of that rank one step before. -/
theorem transGen_recv_cases {x : OpId} (hrank : rank < ranks) (hk : 2 ^ k < ranks)
    (h : Relation.TransGen (built size tag ranks).Causes x ⟨rank, 2 * k + 1⟩) :
    ∃ behind < ranks, (behind + 2 ^ k) % ranks = rank ∧ (x.rank = behind ∨
      ∃ before, k = before + 1 ∧
        Relation.TransGen (built size tag ranks).Causes x ⟨behind, 2 * before + 1⟩) := by
  obtain ⟨⟨behind, index⟩, hsend, hcause⟩ := Relation.TransGen.tail'_iff.1 h
  obtain ⟨hbehind, hahead, rfl⟩ := (causes_recv hrank hk).1 hcause
  refine ⟨behind, hbehind, hahead, ?_⟩
  rcases Relation.reflTransGen_iff_eq_or_transGen.1 hsend with heq | hsend
  · exact Or.inl (congrArg OpId.rank heq).symm
  obtain ⟨y, hrecv, hcause⟩ := Relation.TransGen.tail'_iff.1 hsend
  obtain ⟨hk0, rfl⟩ := (causes_send hbehind hk).1 hcause
  rcases Relation.reflTransGen_iff_eq_or_transGen.1 hrecv with heq | hrecv
  · exact Or.inl (congrArg OpId.rank heq).symm
  · obtain ⟨before, rfl⟩ := Nat.exists_eq_succ_of_ne_zero hk0
    exact Or.inr ⟨before, rfl, hrecv⟩

/-- What has to come before a receive lies behind it by the distances of consecutive steps. -/
theorem distance_of_transGen {x : OpId} {last : Nat} (hrank : rank < ranks)
    (hlast : 2 ^ last < ranks)
    (h : Relation.TransGen (built size tag ranks).Causes x ⟨rank, 2 * last + 1⟩) :
    ∃ first ≤ last, (x.rank + (2 ^ (last + 1) - 2 ^ first)) % ranks = rank := by
  induction last generalizing rank with
  | zero =>
    obtain ⟨behind, -, hahead, hx | ⟨before, hzero, -⟩⟩ := transGen_recv_cases hrank hlast h
    · exact ⟨0, Nat.le_refl 0, by rw [hx]; exact hahead⟩
    · cases hzero
  | succ last ih =>
    have hdouble : 2 ^ (last + 1 + 1) = 2 * 2 ^ (last + 1) := by rw [Nat.pow_succ, Nat.mul_comm]
    obtain ⟨behind, hbehind, hahead, hx | ⟨before, hbefore, hchain⟩⟩ :=
      transGen_recv_cases hrank hlast h
    · refine ⟨last + 1, Nat.le_refl _, ?_⟩
      rw [hx, show 2 ^ (last + 1 + 1) - 2 ^ (last + 1) = 2 ^ (last + 1) by omega, hahead]
    · obtain rfl := Nat.succ.inj hbefore
      obtain ⟨first, hle, hdistance⟩ := ih hbehind (by rw [Nat.pow_succ] at hlast; omega) hchain
      have hpow : 2 ^ first ≤ 2 ^ (last + 1) := Nat.pow_le_pow_right (by omega) (by omega)
      refine ⟨first, by omega, ?_⟩
      rw [show x.rank + (2 ^ (last + 1 + 1) - 2 ^ first) =
        x.rank + (2 ^ (last + 1) - 2 ^ first) + 2 ^ (last + 1) by omega, ← Nat.mod_add_mod,
        hdistance, hahead]

/-- What has to come before an operation is on its own rank or on one that reaches this rank. -/
theorem reaches_of_transGen {x y : OpId}
    (h : Relation.TransGen (built size tag ranks).Causes x y) :
    x.rank = y.rank ∨ Reaches ranks x.rank y.rank := by
  obtain ⟨z, hxz, hz⟩ := Relation.TransGen.tail'_iff.1 h
  obtain ⟨op, hop⟩ := Option.isSome_iff_exists.1 hz.isSome_later
  obtain ⟨rank, index⟩ := y
  obtain ⟨hrank, k, hk, rfl | rfl⟩ := cases_op hop
  · obtain ⟨hk0, rfl⟩ := (causes_send hrank hk).1 hz
    obtain ⟨before, rfl⟩ := Nat.exists_eq_succ_of_ne_zero hk0
    rcases Relation.reflTransGen_iff_eq_or_transGen.1 hxz with heq | hlt
    · exact Or.inl (congrArg OpId.rank heq).symm
    · have hbefore : 2 ^ before < ranks := by
        rw [Nat.pow_succ] at hk
        omega
      exact Or.inr ⟨before, hbefore, distance_of_transGen hrank hbefore hlt⟩
  · exact Or.inr ⟨k, hk, distance_of_transGen hrank hk h⟩

theorem hears_iff {a b : Nat} (ha : a < ranks) (hb : b < ranks) (hne : a ≠ b) :
    (built size tag ranks).Hears (built size tag ranks).Causes b a ↔ Reaches ranks a b := by
  constructor
  · rintro ⟨x, hx, y, hy, hxy⟩
    obtain ⟨rfl, -⟩ := Schedule.mem_sendsOf.1 hx
    obtain ⟨rfl, -⟩ := Schedule.mem_recvsOf.1 hy
    exact (reaches_of_transGen hxy).resolve_left hne
  · rintro ⟨last, hlast, first, hle, hdistance⟩
    have hfirst : 2 ^ first < ranks :=
      Nat.lt_of_le_of_lt (Nat.pow_le_pow_right (by omega) hle) hlast
    obtain ⟨requires, hsend⟩ := @op?_send size tag _ _ _ ha hfirst
    obtain ⟨requires', hrecv⟩ := @op?_recv size tag _ _ _ hb hlast
    exact ⟨_, Schedule.mem_sendsOf.2 ⟨rfl, _, hsend, rfl⟩, _,
      Schedule.mem_recvsOf.2 ⟨rfl, _, hrecv, rfl⟩, transGen_of_distance ha hle hlast hdistance⟩

theorem canFinishBefore_iff {a b : Nat} (ha : a < ranks) (hb : b < ranks) (hne : a ≠ b) :
    (built size tag ranks).CanFinishBefore b a ↔ ¬Reaches ranks a b := by
  rw [← @hears_iff size tag ranks a b ha hb hne]
  constructor
  · exact fun hfinish hhears => hhears.not_canFinishBefore hfinish
  · intro hnot
    rw [hears_iff ha hb hne] at hnot
    refine Schedule.canFinishBefore (paired size tag ranks).leveled.exists_order hne.symm ?_
    rintro x y hxy rfl rfl
    exact hnot ((reaches_of_transGen hxy).resolve_left hne)

/-- In turn, a rank hears of all ranks that are closer behind it than the next distance: the longest
distance that fits comes last, and the rest of the way is shorter than it. -/
theorem exists_transGen_inTurn {a distance : Nat} (ha : a < ranks) (hpos : 0 < distance)
    (hlt : distance < 2 ^ k) (hdistance : distance < ranks) :
    ∃ first last, 2 ^ first < ranks ∧ 2 ^ last < ranks ∧ last < k ∧
      Relation.TransGen (built size tag ranks).CausesInTurn ⟨a, 2 * first⟩
        ⟨(a + distance) % ranks, 2 * last + 1⟩ := by
  induction k generalizing distance with
  | zero => omega
  | succ k ih =>
    rw [Nat.pow_succ] at hlt
    have hrank : ∀ x, x % ranks < ranks := fun x => Nat.mod_lt x (by omega)
    rcases Nat.lt_trichotomy distance (2 ^ k) with hsmall | rfl | hlarge
    · obtain ⟨first, last, hfirst, hlast, hk, hchain⟩ := ih hpos hsmall hdistance
      exact ⟨first, last, hfirst, hlast, by omega, hchain⟩
    · have hcause := (@causes_recv size tag _ _ _ (hrank (a + 2 ^ k)) hdistance ⟨a, 2 * k⟩).2
        ⟨ha, rfl, rfl⟩
      exact ⟨k, k, hdistance, hdistance, by omega, .single (Or.inl hcause)⟩
    · obtain ⟨rest, hrest⟩ := Nat.exists_eq_add_of_lt hlarge
      obtain ⟨first, last, hfirst, hlast, hk, hchain⟩ :=
        ih (show 0 < rest + 1 by omega) (by omega) (by omega)
      have hturn : (built size tag ranks).CausesInTurn
          ⟨(a + (rest + 1)) % ranks, 2 * last + 1⟩ ⟨(a + (rest + 1)) % ranks, 2 * k⟩ :=
        Or.inr ⟨rfl, show 2 * last + 1 < 2 * k by omega⟩
      have hahead : ((a + (rest + 1)) % ranks + 2 ^ k) % ranks = (a + distance) % ranks := by
        rw [Nat.mod_add_mod, hrest]
        congr 1
        omega
      have hcause := (@causes_recv size tag _ _ _ (hrank (a + distance)) (by omega)
        ⟨_, 2 * k⟩).2 ⟨hrank _, hahead, rfl⟩
      exact ⟨first, k, hfirst, by omega, by omega, (hchain.tail hturn).tail (Or.inl hcause)⟩

theorem hears_inTurn {a b : Nat} (ha : a < ranks) (hb : b < ranks) (hne : a ≠ b) :
    (built size tag ranks).Hears (built size tag ranks).CausesInTurn b a := by
  obtain ⟨distance, hpos, hlt, hahead⟩ :
      ∃ distance, 0 < distance ∧ distance < ranks ∧ (a + distance) % ranks = b := by
    rcases Nat.lt_or_gt_of_ne hne with hab | hba
    · refine ⟨b - a, by omega, by omega, ?_⟩
      rw [show a + (b - a) = b by omega, Nat.mod_eq_of_lt hb]
    · refine ⟨b + ranks - a, by omega, by omega, ?_⟩
      rw [show a + (b + ranks - a) = b + ranks by omega, Nat.add_mod_right, Nat.mod_eq_of_lt hb]
  obtain ⟨first, last, hfirst, hlast, -, hchain⟩ := @exists_transGen_inTurn size tag ranks distance
    a distance ha hpos Nat.lt_two_pow_self hlt
  rw [hahead] at hchain
  obtain ⟨requires, hsend⟩ := @op?_send size tag _ _ _ ha hfirst
  obtain ⟨requires', hrecv⟩ := @op?_recv size tag _ _ _ hb hlast
  exact ⟨_, Schedule.mem_sendsOf.2 ⟨rfl, _, hsend, rfl⟩, _,
    Schedule.mem_recvsOf.2 ⟨rfl, _, hrecv, rfl⟩, hchain⟩

end Built

theorem two_pow_cases (k : Nat) :
    2 ^ k = 1 ∨ 2 ^ k = 2 ∨ 2 ^ k = 4 ∨ 2 ^ k = 8 ∨ 2 ^ k % 16 = 0 := by
  match k with
  | 0 => exact Or.inl rfl
  | 1 => exact Or.inr (Or.inl rfl)
  | 2 => exact Or.inr (Or.inr (Or.inl rfl))
  | 3 => exact Or.inr (Or.inr (Or.inr (Or.inl rfl)))
  | k + 4 => exact Or.inr (Or.inr (Or.inr (Or.inr (by rw [Nat.pow_add, Nat.mul_mod_left]))))

/-- No sum of consecutive powers of two is 5, 9 or 10. So on 11 and more ranks such a distance has
to be a sum that goes once around, from a power of two to a multiple of 16. -/
theorem around_of_reaches {ranks distance : Nat} (hranks : 11 ≤ ranks)
    (hdistance : distance = 5 ∨ distance = 9 ∨ distance = 10) (h : Reaches ranks 0 distance) :
    ∃ first, (ranks + distance + 2 ^ first) % 16 = 0 := by
  obtain ⟨last, hlast, first, hle, hahead⟩ := h
  have hpow : 2 ^ first ≤ 2 ^ last := Nat.pow_le_pow_right (by omega) hle
  have hdouble : 2 ^ (last + 1) = 2 * 2 ^ last := by rw [Nat.pow_succ, Nat.mul_comm]
  have hstart := two_pow_cases first
  have hend := two_pow_cases (last + 1)
  refine ⟨first, ?_⟩
  generalize 2 ^ (last + 1) = double at *
  generalize 2 ^ last = top at *
  generalize 2 ^ first = bottom at *
  have hmod := mod_cases (show 0 + (double - bottom) < 2 * ranks by omega)
  omega

/-- By what they wait for, all ranks hear of each other on a few numbers of ranks only. -/
theorem reaches_all_iff {ranks : Nat} (hranks : 2 ≤ ranks) :
    (∀ a < ranks, ∀ b < ranks, a ≠ b → Reaches ranks a b) ↔ ranks ∈ [2, 3, 4, 5, 9] := by
  constructor
  · intro h
    by_cases hsmall : ranks ≤ 10
    · have hcases : ranks ∈ [2, 3, 4, 5, 9] ∨ ranks ∈ [6, 7, 8, 10] := by
        simp
        omega
      refine hcases.resolve_right fun hbad => ?_
      simp only [List.mem_cons, List.not_mem_nil, or_false] at hbad
      rcases hbad with rfl | rfl | rfl | rfl
      · exact absurd (h 0 (by decide) 5 (by decide) (by decide)) (by decide)
      · exact absurd (h 0 (by decide) 5 (by decide) (by decide)) (by decide)
      · exact absurd (h 0 (by decide) 5 (by decide) (by decide)) (by decide)
      · exact absurd (h 0 (by decide) 9 (by decide) (by decide)) (by decide)
    · obtain ⟨i, hi⟩ := around_of_reaches (by omega) (Or.inl rfl)
        (h 0 (by omega) 5 (by omega) (by omega))
      obtain ⟨j, hj⟩ := around_of_reaches (by omega) (Or.inr (Or.inl rfl))
        (h 0 (by omega) 9 (by omega) (by omega))
      obtain ⟨l, hl⟩ := around_of_reaches (by omega) (Or.inr (Or.inr rfl))
        (h 0 (by omega) 10 (by omega) (by omega))
      -- No remainder of `ranks` by 16 is left that suits all three.
      have hicases := two_pow_cases i
      have hjcases := two_pow_cases j
      have hlcases := two_pow_cases l
      omega
  · intro h
    simp only [List.mem_cons, List.not_mem_nil, or_false] at h
    rcases h with rfl | rfl | rfl | rfl | rfl <;> decide

/-- Whatever the size and the tag: a dissemination on at least two ranks is built. By what its
operations wait for, a rank hears of another if and only if the way there is the sum of the
distances of consecutive steps, and otherwise it can finish before the other starts. All ranks hear
of each other in this way on 2, 3, 4, 5 and 9 ranks only. But on any number of ranks all hear of
each other when every rank works in the order of its list. -/
theorem dissemination_hears (size : Nat) (tag : Tag) {ranks : Nat} (hranks : 2 ≤ ranks) :
    ∃ s, (exchange size tag).schedule ranks = .ok s ∧
      (∀ a < ranks, ∀ b < ranks, a ≠ b →
        (s.Hears s.Causes b a ↔ Reaches ranks a b) ∧
        (s.CanFinishBefore b a ↔ ¬Reaches ranks a b) ∧
        s.Hears s.CausesInTurn b a) ∧
      ((∀ a < ranks, ∀ b < ranks, a ≠ b → s.Hears s.Causes b a) ↔ ranks ∈ [2, 3, 4, 5, 9]) := by
  refine ⟨built size tag ranks, schedule_eq size tag (by omega), ?_, ?_⟩
  · intro a ha b hb hne
    exact ⟨hears_iff ha hb hne, canFinishBefore_iff ha hb hne, hears_inTurn ha hb hne⟩
  · rw [← reaches_all_iff hranks]
    constructor
    · exact fun h a ha b hb hne => (hears_iff ha hb hne).1 (h a ha b hb hne)
    · exact fun h a ha b hb hne => (hears_iff ha hb hne).2 (h a ha b hb hne)

/-- On nine ranks all hear of each other: the longest ways go once around. -/
theorem dissemination_hears_nine :
    2 ≤ 9 ∧ ∃ s, (exchange 16 0).schedule 9 = .ok s ∧
      ∀ a < 9, ∀ b < 9, a ≠ b → s.Hears s.Causes b a := by
  obtain ⟨s, hs, -, hall⟩ := @dissemination_hears 16 0 9 (by decide)
  exact ⟨by decide, s, hs, hall.2 (by decide)⟩

/-- On six ranks no message that rank 0 has to wait for comes, directly or not, from rank 1. So
rank 0 can finish before rank 1 starts. -/
theorem dissemination_deaf_six :
    ∃ s, (exchange 1 0).schedule 6 = .ok s ∧ ¬s.Hears s.Causes 0 1 ∧ s.CanFinishBefore 0 1 := by
  have hreaches : ¬Reaches 6 1 0 := by decide
  refine ⟨built 1 0 6, schedule_eq 1 0 (by decide), ?_, ?_⟩
  · rw [hears_iff (by decide) (by decide) (by decide)]
    exact hreaches
  · rw [canFinishBefore_iff (by decide) (by decide) (by decide)]
    exact hreaches

end Dissemination
end Collectives
