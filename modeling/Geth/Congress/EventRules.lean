import Geth.Congress.ListCaches
import Geth.Vm.Executions

namespace Geth.Congress.EventRules

open Lib.BigEndian Lib.Programs Common.Basic Types.Block Types.Receipts ListCaches
open SystemCalls Function List Option
open Core.Evm (AddressCheckType EvmExtraValidator World)

variable {ω : Type}

/-- The answer of `getRuleByIndex`: the topic of an event, an index and a kind of check. -/
abbrev RawRule := Hash × Int × UInt8

def buildRules (raws : List RawRule) : Rules :=
  raws.foldl (fun rules r => addRule rules r.1 r.2.1 r.2.2) fun _ => none

def isAddressDenied (blacks : Blacklist) (address : Address) : AddressCheckType → Bool
  | .checkFrom => (blacks address).any (· ≠ .directionTo)
  | .checkTo => (blacks address).any (· ≠ .directionFrom)
  | .checkBothInAny => (blacks address).isSome
  | .checkNone | .other _ => false

/-- The visit of the entries of a rule, in the order in which the map is traversed. -/
def checkTopics (blacks : Blacklist) (topics : List Hash) :
    List (Int × AddressCheckType) → Except Panic Bool
  | [] => .ok false
  | (idx, checkType) :: rest =>
    if (topics.length : Int) ≤ idx then checkTopics blacks topics rest
    else if idx < 0 then .error .indexRange
    else
      let topic := topics.getD idx.toNat (zeros 32)
      if isAddressDenied blacks (copyInto 20 (topic.toList.drop 12)) checkType then .ok true
      else checkTopics blacks topics rest

/-- `IsLogDenied`. The traversal gives an order of the entries of a map. -/
def isLogDenied (blacks : Blacklist) (rules : Rules)
    (traversal : (Int → Option AddressCheckType) → List (Int × AddressCheckType)) :
    Option Log → Except Panic Bool
  | none => .ok false
  | some evLog =>
    match evLog.topics with
    | [] => .ok false
    | [_] => .ok false
    | sig :: _ :: _ =>
      match rules sig with
      | none => .ok false
      | some rule => checkTopics blacks evLog.topics (traversal rule.checks)

/-- The validator that a machine of the block asks. -/
def blacklistValidator (blacks : Blacklist) (rules : Rules)
    (traversal : (Int → Option AddressCheckType) → List (Int × AddressCheckType)) : EvmExtraValidator where
  isAddressDenied := isAddressDenied blacks
  isLogDenied evLog := isLogDenied blacks rules traversal (some evLog)

/-- The traversal visits the entries of the rule for a log. -/
def Visits (raws : List RawRule) (evLog : Log)
    (traversal : (Int → Option AddressCheckType) → List (Int × AddressCheckType)) : Prop :=
  ∀ rule ∈ evLog.topics.head?.bind (buildRules raws), ∀ e,
    e ∈ traversal rule.checks ↔ rule.checks e.1 = some e.2

def lastRule (raws : List RawRule) (sig : Hash) (i : Int) : Option UInt8 :=
  (raws.reverse.find? fun r => decide (r.1 = sig ∧ r.2.1 = i)).map fun r => r.2.2

/-- Some rule for the log's first topic names a later topic that is denied. -/
def Denies (blacks : Blacklist) (raws : List RawRule) (evLog : Log) : Prop :=
  ∃ sig ∈ evLog.topics.head?, ∃ (i : ℕ) (topic : Hash) (ct : UInt8), 1 ≤ i ∧
    evLog.topics[i]? = some topic ∧ lastRule raws sig i = some ct ∧
    isAddressDenied blacks (copyInto 20 (topic.toList.drop 12)) (addressCheckType ct) = true

section

variable {raws : List RawRule} {sig : Hash} {i : Int}

theorem readRulesFrom_eq {c : Posa ω} {al : AddressList ω} {header : Header} {i n : ℕ}
    {rules rules' : Rules} {s s' : World ω}
    (h : readRulesFrom c al header i n rules s = .ok rules' s') :
    ∃ raws : List RawRule, raws.length = n ∧
      rules' = raws.foldl (fun rules r => addRule rules r.1 r.2.1 r.2.2) rules := by
  induction n generalizing i rules s with
  | zero =>
    obtain ⟨rfl, _⟩ := pure_ok.mp h
    exact ⟨[], rfl, rfl⟩
  | succ n ih =>
    obtain ⟨_, _, _, h⟩ := bind_ok.mp h
    obtain ⟨r, _, _, h⟩ := bind_ok.mp h
    obtain ⟨raws, hlen, hrules⟩ := ih h
    exact ⟨r :: raws, by rw [length_cons, hlen], hrules⟩

theorem toInt64_bigUint64 (hi : 0 ≤ i) (hlt : i < 2 ^ 63) : (bigUint64 i).toInt64.toInt = i := by
  have hnat : (bigUint64 i).toNat = i.natAbs := by
    rw [bigUint64, UInt64.toNat_ofNat', Nat.mod_eq_of_lt (by omega)]
  rw [Vm.Executions.toInt64_of_lt (by omega), hnat]
  omega

/-- Below `2 ^ 63` the entries of the map are the rules, the later ones over the earlier. -/
theorem buildRules_checks (hfit : ∀ r ∈ raws, r.1 = sig → 0 ≤ r.2.1 ∧ r.2.1 < 2 ^ 63) (i : Int) :
    (buildRules raws sig).bind (·.checks i) = (lastRule raws sig i).map addressCheckType := by
  induction raws using reverseRecOn with
  | nil => rfl
  | append_singleton raws r ih =>
    have hprev := ih fun r' hr' => hfit r' (mem_append_left _ hr')
    have hadd : buildRules (raws ++ [r]) = addRule (buildRules raws) r.1 r.2.1 r.2.2 := by
      simp [buildRules]
    have hlast : lastRule (raws ++ [r]) sig i =
        if r.1 = sig ∧ r.2.1 = i then some r.2.2 else lastRule raws sig i := by
      rw [lastRule, reverse_append, reverse_singleton, singleton_append, find?_cons]
      split <;> simp_all [lastRule]
    rw [hadd, hlast, addRule]
    by_cases hsig : r.1 = sig
    · obtain ⟨h0, h63⟩ := hfit r (mem_append_right _ (mem_singleton_self r)) hsig
      subst hsig
      rw [update_self, bind_some, toInt64_bigUint64 h0 h63]
      by_cases hi : r.2.1 = i
      · subst hi
        simp
      rw [if_neg fun h => hi h.2, ← hprev]
      dsimp only
      rw [update_of_ne (Ne.symm hi)]
      cases buildRules raws r.1 <;> rfl
    · rw [if_neg fun h => hsig h.1, update_of_ne (Ne.symm hsig), hprev]

theorem lastRule_mem {ct} (h : lastRule raws sig i = some ct) : ∃ r ∈ raws, r.1 = sig ∧ r.2.1 = i := by
  obtain ⟨r, hr, -⟩ := map_eq_some_iff.mp h
  have hmatch := find?_some hr
  exact ⟨r, mem_reverse.mp (mem_of_find?_eq_some hr), of_decide_eq_true hmatch⟩

theorem checkTopics_eq (blacks : Blacklist) (topics : List Hash)
    {entries : List (Int × AddressCheckType)} (hpos : ∀ e ∈ entries, 0 ≤ e.1) :
    ∃ b, checkTopics blacks topics entries = .ok b ∧ (b = true ↔ ∃ e ∈ entries, ∃ topic,
      topics[e.1.toNat]? = some topic ∧
        isAddressDenied blacks (copyInto 20 (topic.toList.drop 12)) e.2 = true) := by
  induction entries with
  | nil => exact ⟨false, rfl, by simp⟩
  | cons e entries ih =>
    obtain ⟨b, hb, hiff⟩ := ih fun e' he' => hpos e' (mem_cons_of_mem _ he')
    have h0 := hpos e mem_cons_self
    rw [checkTopics]
    by_cases hlen : (topics.length : Int) ≤ e.1
    · have hnone : topics[e.1.toNat]? = none := getElem?_eq_none (by omega)
      refine ⟨b, by rw [if_pos hlen, hb], ?_⟩
      simp [hiff, hnone]
    obtain ⟨topic, htopic⟩ : ∃ topic, topics[e.1.toNat]? = some topic :=
      ⟨_, getElem?_eq_getElem (by omega)⟩
    rw [if_neg hlen, if_neg (by omega), getD_eq_getElem?_getD, htopic, getD_some]
    by_cases hdenied : isAddressDenied blacks (copyInto 20 (topic.toList.drop 12)) e.2 = true
    · exact ⟨true, if_pos hdenied, by simp [htopic, hdenied]⟩
    refine ⟨b, by rw [if_neg hdenied, hb], ?_⟩
    simp [hiff, htopic, hdenied]

end

/-- The check returns for every order of the map exactly when no index of the log's rule has become
negative. -/
theorem isLogDenied_returns_iff (blacks : Blacklist) {raws} {evLog}
    {traversal} (htraversal : Visits raws evLog traversal) :
    (∀ t, Visits raws evLog t → ∃ b, isLogDenied blacks (buildRules raws) t (some evLog) = .ok b) ↔
      evLog.topics.length ≤ 1 ∨ ∀ rule ∈ evLog.topics.head?.bind (buildRules raws), ∀ i : Int,
        rule.checks i ≠ none → 0 ≤ i := by
  rcases evLog with ⟨address, topics, _⟩
  rcases topics with - | ⟨sig, - | ⟨topic, topics⟩⟩
  · exact ⟨fun _ => .inl zero_le_one, fun _ _ _ => ⟨false, rfl⟩⟩
  · exact ⟨fun _ => .inl le_rfl, fun _ _ _ => ⟨false, rfl⟩⟩
  constructor
  · intro hall
    refine .inr fun rule hrule i hi => ?_
    obtain ⟨ct, he⟩ := ne_none_iff_exists'.mp hi
    -- an order that comes to the entry first
    obtain ⟨b, hb⟩ := hall (fun checks => (i, ct) :: traversal checks) fun rule' hrule' e => by
      obtain rfl : rule = rule' := Option.some.inj (hrule.symm.trans hrule')
      rw [mem_cons, htraversal rule hrule]
      exact or_iff_right_of_imp fun h => h ▸ he
    by_contra hneg
    have hrule' : buildRules raws sig = some rule := hrule
    simp only [isLogDenied, hrule', checkTopics] at hb
    rw [if_neg (by omega), if_pos (by omega)] at hb
    cases hb
  · rintro (hlen | hpos) t ht
    · simp at hlen
    cases hrule : buildRules raws sig with
    | none => exact ⟨false, by simp only [isLogDenied, hrule]⟩
    | some rule =>
      obtain ⟨b, hb, _⟩ := @checkTopics_eq blacks (sig :: topic :: topics) (t rule.checks)
        fun e he => hpos rule hrule e.1 (by simp [(ht rule hrule e).mp he])
      exact ⟨b, by simp only [isLogDenied, hrule, hb]⟩

/-- The check returns for every order of the map exactly when no index has become negative. Where
the indices of the rules for a log lie between `1` and `2 ^ 63`, it denies the log exactly when a rule does. -/
theorem isLogDenied_exact (blacks : Blacklist) (raws : List RawRule) (evLog : Log)
    (traversal : (Int → Option AddressCheckType) → List (Int × AddressCheckType))
    (htraversal : Visits raws evLog traversal) :
    ((∀ t, Visits raws evLog t → ∃ b, isLogDenied blacks (buildRules raws) t (some evLog) = .ok b) ↔
      evLog.topics.length ≤ 1 ∨ ∀ rule ∈ evLog.topics.head?.bind (buildRules raws), ∀ i : Int,
        rule.checks i ≠ none → 0 ≤ i) ∧
    ((evLog.topics.length ≤ 1 ∨ ∀ r ∈ raws, r.1 ∈ evLog.topics.head? → 1 ≤ r.2.1 ∧ r.2.1 < 2 ^ 63) →
      ∃ b, isLogDenied blacks (buildRules raws) traversal (some evLog) = .ok b ∧
        (b = true ↔ Denies blacks raws evLog)) := by
  refine ⟨isLogDenied_returns_iff blacks htraversal, fun hfit => ?_⟩
  rcases evLog with ⟨address, topics, _⟩
  rcases topics with - | ⟨sig, - | ⟨topic, topics⟩⟩
  · exact ⟨false, rfl, by simp [Denies]⟩
  · refine ⟨false, rfl, iff_of_false Bool.false_ne_true ?_⟩
    rintro ⟨_, _, i, _, _, hi, hnone, _⟩
    rw [getElem?_eq_none (by simpa using hi)] at hnone
    cases hnone
  replace hfit := hfit.resolve_left (by simp)
  have hnonneg : ∀ r ∈ raws, r.1 = sig → 0 ≤ r.2.1 ∧ r.2.1 < 2 ^ 63 := fun r hr hsig =>
    ⟨by linarith [hfit r hr (hsig ▸ rfl)], (hfit r hr (hsig ▸ rfl)).2⟩
  have hchecks := buildRules_checks hnonneg
  rw [isLogDenied]
  dsimp only
  cases hrule : buildRules raws sig with
  | none =>
    refine ⟨false, rfl, iff_of_false Bool.false_ne_true ?_⟩
    rintro ⟨_, hsig, i, _, ct, _, _, hlast, _⟩
    cases hsig
    have hi := hchecks i
    rw [hrule, hlast] at hi
    cases hi
  | some rule =>
    have hentry (e : Int × AddressCheckType) : e ∈ traversal rule.checks ↔
        (lastRule raws sig e.1).map addressCheckType = some e.2 := by
      rw [htraversal rule hrule, ← hchecks, hrule, bind_some]
    have hpos {i : Int} {ct : UInt8} (hlast : lastRule raws sig i = some ct) : 1 ≤ i := by
      obtain ⟨r, hr, hsig, rfl⟩ := lastRule_mem hlast
      exact (hfit r hr (hsig ▸ rfl)).1
    have hentries : ∀ e ∈ traversal rule.checks, 0 ≤ e.1 := fun e he => by
      obtain ⟨ct, hlast, _⟩ := map_eq_some_iff.mp ((hentry e).mp he)
      linarith [hpos hlast]
    obtain ⟨b, hb, hiff⟩ := checkTopics_eq blacks (sig :: topic :: topics) hentries
    refine ⟨b, hb, hiff.trans ⟨?_, ?_⟩⟩
    · rintro ⟨e, he, t, ht, hdenied⟩
      obtain ⟨ct, hlast, hct⟩ := map_eq_some_iff.mp ((hentry e).mp he)
      have hone := hpos hlast
      refine ⟨sig, rfl, e.1.toNat, t, ct, by omega, ht, ?_, by rw [hct, hdenied]⟩
      rw [Int.toNat_of_nonneg (by omega), hlast]
    rintro ⟨_, hsig, i, t, ct, _, ht, hlast, hdenied⟩
    cases hsig
    refine ⟨(i, addressCheckType ct), (hentry _).mpr ?_, t, ht, hdenied⟩
    exact congrArg (Option.map addressCheckType) hlast

def sampleBlacks : Blacklist := fun a => if a = hexToAddress 7 then some .directionFrom else none

def sampleLog : Log :=
  ⟨zeros 20, [hexToHash 1, hexToHash 7], [], 0, zeros 32, 0, zeros 32, 0⟩

def traverseOne (i : Int) (checks : Int → Option AddressCheckType) : List (Int × AddressCheckType) :=
  ((checks i).map fun ct => (i, ct)).toList

theorem traverseOne_single (i idx : Int) (ct : UInt8) (hi : (bigUint64 idx).toInt64.toInt = i) :
    Visits [(hexToHash 1, idx, ct)] sampleLog (traverseOne i) := by
  rintro rule hrule ⟨j, ct'⟩
  cases hrule
  simp only [hi, traverseOne, update_self]
  by_cases hj : j = i
  · subst hj
    simp [eq_comm]
  · simp [hj]

theorem isLogDenied_exact_first : ∃ b, isLogDenied sampleBlacks
    (buildRules [(hexToHash 1, 1, 1)]) (traverseOne 1) (some sampleLog) = .ok b ∧
    (b = true ↔ Denies sampleBlacks [(hexToHash 1, 1, 1)] sampleLog) :=
  (isLogDenied_exact _ _ _ _ (traverseOne_single 1 1 1 (by decide))).2 <| .inr fun r hr _ => by
    obtain rfl := mem_singleton.mp hr
    decide

theorem isLogDenied_panics : Visits [(hexToHash 1, 2 ^ 63, 1)] sampleLog (traverseOne (-2 ^ 63)) ∧
    isLogDenied sampleBlacks (buildRules [(hexToHash 1, 2 ^ 63, 1)]) (traverseOne (-2 ^ 63))
      (some sampleLog) = .error .indexRange :=
  ⟨traverseOne_single _ _ _ (by decide), by decide +kernel⟩

end Geth.Congress.EventRules
