/-
The history of prices as a map from requests to rates.

The runs of a history stand in order, so the first one that does not end before a request is
the one that prices it.  Recording a batch leaves every earlier request at its rate and gives
all requests of the batch one rate: its own, or that of the run it joins.
-/
import LiquidStaking.Proofs.Rate
import LiquidStaking.Withdrawal.Prices
import Mathlib.Data.List.Chain

namespace LiquidStaking

namespace PriceRun

def pair (r : PriceRun) : Rate := ⟨r.poolValue.val, r.shares.val⟩

theorem rate_eq_ok {r : PriceRun} (h : r.shares.val ≠ 0) : r.rate = .ok r.pair :=
  Rate.ofAmounts_eq_ok h

theorem price_eq_ok_iff {r : PriceRun} {n : Nat} :
    r.price = .ok n ↔ r.shares.val ≠ 0 ∧ n = r.poolValue.val * priceBase / r.shares.val := by
  unfold price
  rw [bind_eq_ok]
  constructor
  · rintro ⟨rate, hrate, h⟩
    have haccepted : rate.Accepted := ⟨_, _, hrate⟩
    obtain ⟨-, rfl⟩ := Rate.make_eq_ok_iff.1 hrate
    exact haccepted.price_eq_ok_iff.1 h
  · rintro ⟨hs, hn⟩
    have haccepted : r.pair.Accepted := ⟨_, _, rate_eq_ok hs⟩
    exact ⟨_, rate_eq_ok hs, haccepted.price_eq_ok_iff.2 ⟨hs, hn⟩⟩

theorem exists_price {r : PriceRun} (h : r.shares.val ≠ 0) : ∃ n, r.price = .ok n :=
  ⟨_, price_eq_ok_iff.2 ⟨h, rfl⟩⟩

end PriceRun

namespace PriceHistory

/-- What every history keeps that prices the first `n` requests and no others. -/
structure Valid (h : PriceHistory) (n : Nat) : Prop where
  ordered : h.runs.Pairwise (fun a b => a.last.val < b.last.val)
  priced : ∀ r ∈ h.runs, r.shares.val ≠ 0
  distinct : h.runs.IsChain (fun a b => a.price ≠ b.price)
  ends : n = h.runs.getLast?.elim 0 (fun r => r.last.val + 1)

/-- Whether a run does not end before a request. -/
def reaches (request : Nat) (r : PriceRun) : Bool := decide (request ≤ r.last.val)

/-- The first run that does not end before a request; the number of runs if there is none. -/
def covering (h : PriceHistory) (request : Nat) : Nat := h.runs.findIdx (reaches request)

/-- The rate a request settles at. -/
def rateFor (h : PriceHistory) (request : Nat) : Option Rate :=
  (h.runs.find? (reaches request)).map PriceRun.pair

theorem empty_valid : Valid empty 0 :=
  ⟨List.Pairwise.nil, by simp [empty], List.IsChain.nil, rfl⟩

/- Runs that stand in order reach a request from some place on. -/

theorem reaches_mono {request : Nat} {a b : PriceRun} (h : a.last.val < b.last.val)
    (ha : reaches request a = true) : reaches request b = true := by
  simp only [reaches, decide_eq_true_eq] at ha ⊢
  omega

theorem length_takeWhile_reverse {request : Nat} {runs : List PriceRun}
    (h : runs.Pairwise (fun a b => a.last.val < b.last.val)) :
    (runs.reverse.takeWhile (reaches request)).length =
      runs.length - runs.findIdx (reaches request) := by
  induction runs with
  | nil => rfl
  | cons r rs ih =>
    obtain ⟨hr, hrs⟩ := List.pairwise_cons.1 h
    rw [List.reverse_cons, List.findIdx_cons]
    cases hreach : reaches request r with
    | true =>
      have hall : ∀ x ∈ rs.reverse, reaches request x = true := fun x hx =>
        reaches_mono (hr x (List.mem_reverse.1 hx)) hreach
      rw [List.takeWhile_append_of_pos hall, List.takeWhile_cons_of_pos hreach]
      simp
    | false =>
      have htail : [r].takeWhile (reaches request) = [] := by simp [hreach]
      rw [List.takeWhile_append, htail, List.append_nil]
      have hlen : (if (rs.reverse.takeWhile (reaches request)).length = rs.reverse.length
          then rs.reverse else rs.reverse.takeWhile (reaches request)).length =
            (rs.reverse.takeWhile (reaches request)).length := by
        split
        · next e => exact e.symm
        · rfl
      rw [hlen, ih hrs]
      simp

theorem findLinear_eq {h : PriceHistory}
    (ordered : h.runs.Pairwise (fun a b => a.last.val < b.last.val)) (request : Count) :
    h.findLinear request =
      if h.covering request.val < h.size then .ok (h.covering request.val)
      else .error (.priceNotFound request.val) := by
  have hlen : (h.runs.reverse.takeWhile (reaches request.val)).length =
      h.size - h.covering request.val := length_takeWhile_reverse ordered
  have hle : h.covering request.val ≤ h.size := List.findIdx_le_length
  show (if (h.runs.reverse.takeWhile (reaches request.val)).isEmpty then _ else
    Except.ok (h.size - (h.runs.reverse.takeWhile (reaches request.val)).length)) = _
  by_cases hlt : h.covering request.val < h.size
  · have hne : (h.runs.reverse.takeWhile (reaches request.val)).isEmpty = false := by
      rw [List.isEmpty_eq_false_iff_exists_mem]
      exact List.exists_mem_of_length_pos (by omega)
    have hsub : h.size - (h.size - h.covering request.val) = h.covering request.val := by omega
    rw [hne, hlen, hsub, if_pos hlt]
    rfl
  · have hnil : h.runs.reverse.takeWhile (reaches request.val) = [] :=
      List.eq_nil_of_length_eq_zero (by omega)
    rw [hnil, if_neg hlt]
    rfl

theorem isValidHint_iff {h : PriceHistory}
    (ordered : h.runs.Pairwise (fun a b => a.last.val < b.last.val)) {hint : Nat}
    {request : Count} :
    h.isValidHint hint request = true ↔ hint < h.size ∧ h.covering request.val = hint := by
  unfold isValidHint
  rcases Nat.lt_or_ge hint h.runs.length with hlt | hge
  · rw [List.getElem?_eq_getElem hlt]
    have hfind := List.findIdx_eq (p := reaches request.val) hlt
    show (decide (request.val ≤ h.runs[hint].last.val) && _) = true ↔
      hint < h.runs.length ∧ h.runs.findIdx (reaches request.val) = hint
    rw [hfind, Bool.and_eq_true, and_iff_right hlt]
    refine and_congr_right (fun _ => ?_)
    cases hint with
    | zero => simp
    | succ before =>
      have hb : before < h.runs.length := by omega
      simp only [List.getElem?_eq_getElem hb, Option.all_some, decide_eq_true_eq]
      constructor
      · intro hlast j hj
        have hjlt : j < h.runs.length := by omega
        have hle : h.runs[j].last.val ≤ h.runs[before].last.val := by
          rcases Nat.lt_or_eq_of_le (Nat.le_of_lt_succ hj) with hjb | rfl
          · exact Nat.le_of_lt (List.pairwise_iff_getElem.1 ordered j before _ hb hjb)
          · exact Nat.le_refl _
        simp only [reaches, decide_eq_false_iff_not]
        omega
      · intro hall
        have := hall before (by omega)
        simp only [reaches, decide_eq_false_iff_not] at this
        omega
  · rw [List.getElem?_eq_none hge]
    have hnot : ¬ hint < h.size := Nat.not_lt.2 hge
    simp [hnot]

theorem rateFor_eq_covering (h : PriceHistory) (request : Nat) :
    h.rateFor request = (h.runs[h.covering request]?).map PriceRun.pair := by
  rw [rateFor, List.find?_eq_getElem?_findIdx, covering]

/-- What recording a batch leaves: its requests form the end of the last run, which is either
new or the last run of before with the same integer price. -/
theorem record_eq_ok {h h' : PriceHistory} {last : Count} {poolValue shares : Amount}
    (e : h.record last poolValue shares = .ok h') :
    shares.val ≠ 0 ∧ (∀ r ∈ h.runs.getLast?, r.last.val < last.val) ∧
      ((h'.runs = h.runs ++ [⟨poolValue, shares, last⟩] ∧
          ∀ r ∈ h.runs.getLast?, r.price ≠ PriceRun.price ⟨poolValue, shares, last⟩) ∨
        ∃ rs before, h.runs = rs ++ [before] ∧ h'.runs = rs ++ [{ before with last }] ∧
          before.price = PriceRun.price ⟨poolValue, shares, last⟩) := by
  unfold record at e
  simp only [bind_eq_ok, lift_eq_ok] at e
  obtain ⟨price, hprice, e⟩ := e
  have hs := (PriceRun.price_eq_ok_iff.1 hprice).1
  refine ⟨hs, ?_⟩
  cases hlast : h.runs.getLast? with
  | none =>
    rw [hlast] at e
    have hnil : h.runs = [] := List.getLast?_eq_none_iff.1 hlast
    cases pure_eq_ok.1 e
    exact ⟨by simp, .inl ⟨by rw [hnil]; rfl, by simp⟩⟩
  | some before =>
    rw [hlast] at e
    obtain ⟨rs, hruns⟩ := List.getLast?_eq_some_iff.1 hlast
    simp only at e
    split at e
    · cases e
    · next hlt =>
      refine ⟨fun r hr => ?_, ?_⟩
      · cases hr
        omega
      simp only [bind_eq_ok, lift_eq_ok] at e
      obtain ⟨earlier, hearlier, e⟩ := e
      split at e
      · next heq =>
        cases pure_eq_ok.1 e
        refine .inr ⟨rs, before, hruns, ?_, by rw [hearlier, hprice, heq]⟩
        rw [hruns, List.dropLast_concat]
      · next hne =>
        cases pure_eq_ok.1 e
        refine .inl ⟨rfl, fun r hr => ?_⟩
        cases hr
        rw [hearlier, hprice]
        exact fun h => hne (Except.ok.inj h)

namespace Valid

variable {h h' : PriceHistory} {n : Nat}

theorem ends_concat (hv : h.Valid n) {rs : List PriceRun} {before : PriceRun}
    (hruns : h.runs = rs ++ [before]) : n = before.last.val + 1 := by
  have hends := hv.ends
  rw [hruns, List.getLast?_concat] at hends
  exact hends

theorem last_lt (hv : h.Valid n) {r : PriceRun} (hr : r ∈ h.runs) : r.last.val < n := by
  rcases List.eq_nil_or_concat h.runs with hnil | ⟨rs, before, hruns⟩
  · rw [hnil] at hr
    cases hr
  · rw [List.concat_eq_append] at hruns
    have hn := hv.ends_concat hruns
    have hord := hv.ordered
    rw [hruns, List.pairwise_append] at hord
    rw [hruns] at hr
    rcases List.mem_append.1 hr with hr | hr
    · have := hord.2.2 r hr before List.mem_cons_self
      omega
    · rw [List.mem_singleton.1 hr]
      omega

theorem exists_reaches (hv : h.Valid n) {request : Nat} (hlt : request < n) :
    ∃ r ∈ h.runs, reaches request r = true := by
  rcases List.eq_nil_or_concat h.runs with hnil | ⟨rs, before, hruns⟩
  · have hends := hv.ends
    rw [hnil] at hends
    exact absurd hends (Nat.ne_of_gt (Nat.lt_of_le_of_lt (Nat.zero_le _) hlt))
  · rw [List.concat_eq_append] at hruns
    have hn := hv.ends_concat hruns
    refine ⟨before, by rw [hruns]; simp, ?_⟩
    simp only [reaches, decide_eq_true_eq]
    omega

theorem covering_lt (hv : h.Valid n) {request : Nat} (hlt : request < n) :
    h.covering request < h.size :=
  List.findIdx_lt_length.2 (hv.exists_reaches hlt)

theorem rateFor_isSome (hv : h.Valid n) {request : Nat} (hlt : request < n) :
    ∃ r, h.rateFor request = some r ∧ r.shares ≠ 0 := by
  obtain ⟨x, hx, hreach⟩ := hv.exists_reaches hlt
  cases hfind : h.runs.find? (reaches request) with
  | none => exact absurd hreach (by simpa using List.find?_eq_none.1 hfind x hx)
  | some run =>
    exact ⟨run.pair, by rw [rateFor, hfind]; rfl,
      hv.priced run (List.mem_of_find?_eq_some hfind)⟩

/-- Recording a batch that starts where the history ends moves the end to the batch's. -/
theorem record (hv : h.Valid n) {last : Count} {poolValue shares : Amount}
    (e : h.record last poolValue shares = .ok h') : h'.Valid (last.val + 1) := by
  obtain ⟨hs, hlast, ⟨hruns, hdist⟩ | ⟨rs, before, hold, hruns, hprice⟩⟩ := record_eq_ok e
  · have hlt : ∀ r ∈ h.runs, r.last.val < last.val := by
      intro r hr
      rcases List.eq_nil_or_concat h.runs with hnil | ⟨rs, before, hold⟩
      · rw [hnil] at hr
        cases hr
      · rw [List.concat_eq_append] at hold
        have hb := hlast before (by rw [hold, List.getLast?_concat]; rfl)
        have hn := hv.ends_concat hold
        have := hv.last_lt hr
        omega
    refine ⟨?_, ?_, ?_, ?_⟩
    · rw [hruns, List.pairwise_append]
      exact ⟨hv.ordered, List.pairwise_singleton _ _, fun a ha b hb => by
        rw [List.mem_singleton.1 hb]
        exact hlt a ha⟩
    · intro r hr
      rw [hruns] at hr
      rcases List.mem_append.1 hr with hr | hr
      · exact hv.priced r hr
      · rw [List.mem_singleton.1 hr]
        exact hs
    · rw [hruns]
      refine hv.distinct.append (List.IsChain.singleton _) (fun x hx y hy => ?_)
      cases hy
      exact hdist x hx
    · rw [hruns, List.getLast?_concat]
      rfl
  · have hord := hv.ordered
    rw [hold, List.pairwise_append] at hord
    have hb := hlast before (by rw [hold, List.getLast?_concat]; rfl)
    refine ⟨?_, ?_, ?_, ?_⟩
    · rw [hruns, List.pairwise_append]
      refine ⟨hord.1, List.pairwise_singleton _ _, fun a ha b hb' => ?_⟩
      rw [List.mem_singleton.1 hb']
      exact Nat.lt_trans (hord.2.2 a ha before List.mem_cons_self) hb
    · intro r hr
      rw [hruns] at hr
      rcases List.mem_append.1 hr with hr | hr
      · exact hv.priced r (by rw [hold]; exact List.mem_append_left _ hr)
      · rw [List.mem_singleton.1 hr]
        exact hv.priced before (by rw [hold]; simp)
    · have hchain := hv.distinct
      rw [hold, List.isChain_append] at hchain
      rw [hruns]
      refine hchain.1.append (List.IsChain.singleton _) (fun x hx y hy => ?_)
      cases hy
      exact hchain.2.2 x hx before rfl
    · rw [hruns, List.getLast?_concat]
      rfl

theorem exists_record (hv : h.Valid n) {last : Count} (hlast : n ≤ last.val)
    (poolValue : Amount) {shares : Amount} (hs : shares.val ≠ 0) :
    ∃ h', h.record last poolValue shares = .ok h' := by
  obtain ⟨price, hprice⟩ := PriceRun.exists_price (r := ⟨poolValue, shares, last⟩) hs
  unfold PriceHistory.record
  simp only [hprice, lift_ok, ok_bind]
  cases hl : h.runs.getLast? with
  | none => exact ⟨_, rfl⟩
  | some before =>
    obtain ⟨rs, hruns⟩ := List.getLast?_eq_some_iff.1 hl
    have hn := hv.ends_concat hruns
    obtain ⟨earlier, hearlier⟩ :=
      PriceRun.exists_price (hv.priced before (by rw [hruns]; simp))
    have hnot : ¬ last.val ≤ before.last.val := by omega
    simp only [if_neg hnot, hearlier, lift_ok, ok_bind]
    by_cases heq : earlier = price
    · exact ⟨_, if_pos heq⟩
    · exact ⟨_, if_neg heq⟩

/-- Recording a batch leaves every earlier request at its rate. -/
theorem rateFor_record_of_lt (hv : h.Valid n) {last : Count} {poolValue shares : Amount}
    (e : h.record last poolValue shares = .ok h') {request : Nat} (hlt : request < n) :
    h'.rateFor request = h.rateFor request := by
  obtain ⟨-, hlast, ⟨hruns, -⟩ | ⟨rs, before, hold, hruns, -⟩⟩ := record_eq_ok e
  · obtain ⟨x, hx, hreach⟩ := hv.exists_reaches hlt
    have hsome : (h.runs.find? (reaches request)).isSome := List.find?_isSome.2 ⟨x, hx, hreach⟩
    rw [rateFor, rateFor, hruns, List.find?_append, Option.or_of_isSome hsome]
  · have hn := hv.ends_concat hold
    have hb := hlast before (by rw [hold, List.getLast?_concat]; rfl)
    have hreach : reaches request before = true := by
      simp only [reaches, decide_eq_true_eq]
      omega
    have hreach' : reaches request { before with last } = true := reaches_mono hb hreach
    rw [rateFor, rateFor, hruns, hold, List.find?_append, List.find?_append]
    rw [List.find?_cons_of_pos hreach, List.find?_cons_of_pos hreach']
    cases rs.find? (reaches request) <;> rfl

/-- The requests of a batch settle at its rate, or at that of the run the batch joins. -/
theorem rateFor_record_of_ge (hv : h.Valid n) {last : Count} {poolValue shares : Amount}
    (e : h.record last poolValue shares = .ok h') {request : Nat} (hge : n ≤ request)
    (hle : request ≤ last.val) :
    ∃ run, h'.rateFor request = some (PriceRun.pair run) ∧
      (run = ⟨poolValue, shares, last⟩ ∨
        run ∈ h.runs.getLast? ∧ run.price = PriceRun.price ⟨poolValue, shares, last⟩) := by
  have hmiss : ∀ rs : List PriceRun, (∀ r ∈ rs, r ∈ h.runs) →
      rs.find? (reaches request) = none := by
    intro rs hrs
    refine List.find?_eq_none.2 (fun r hr => ?_)
    have := hv.last_lt (hrs r hr)
    simp only [reaches, decide_eq_true_eq]
    omega
  have hreach : ∀ run : PriceRun, run.last = last → reaches request run = true := by
    intro run hrun
    simp only [reaches, decide_eq_true_eq, hrun]
    exact hle
  obtain ⟨-, -, ⟨hruns, -⟩ | ⟨rs, before, hold, hruns, hprice⟩⟩ := record_eq_ok e
  · refine ⟨⟨poolValue, shares, last⟩, ?_, .inl rfl⟩
    rw [rateFor, hruns, List.find?_append, hmiss h.runs (fun _ hr => hr),
      List.find?_cons_of_pos (hreach _ rfl)]
    rfl
  · refine ⟨before, ?_, .inr ⟨by rw [hold, List.getLast?_concat]; rfl, hprice⟩⟩
    rw [rateFor, hruns, List.find?_append,
      hmiss rs (fun r hr => by rw [hold]; exact List.mem_append_left _ hr),
      List.find?_cons_of_pos (hreach _ rfl)]
    rfl

end Valid
end PriceHistory
end LiquidStaking
