import Boltchain.Contracts.LimitedWallet

namespace Boltchain.Contracts.LimitedWallet

open Lib
open Lib.Reentry (Call Code Guarantee Run)

def sentOn (sent : List Spend) (day : Nat) : Nat := ((sent.filter (·.day = day)).map Spend.value).sum

def Spend.Fair (s : Spend) : Prop :=
  s.value ≤ s.perTxLimit.val ∧ s.allowed = true ∧ s.auth.key = s.auth.signer ∧ s.auth.signer ≠ 0

theorem sentOn_cons (s : Spend) (sent : List Spend) (day : Nat) :
    sentOn (s :: sent) day = (if s.day = day then s.value else 0) + sentOn sent day := by
  by_cases h : s.day = day <;> simp [sentOn, h]

theorem sentOn_eq_zero {sent : List Spend} {day : Nat} (h : ∀ s ∈ sent, s.day < day) : sentOn sent day = 0 := by
  have hnone : sent.filter (·.day = day) = [] := by
    rw [List.filter_eq_nil_iff]
    intro s hs
    have := h s hs
    simp only [decide_eq_true_eq]
    omega
  rw [sentOn, hnone]
  rfl

structure Sound (account : Address) (S : Signing) (w : Wallet) : Prop where
  notSelf : w.cfg.allowed account = false
  limit : w.cfg.dailyLimit.val ≤ w.largest w.today
  day : w.cfg.day ≤ w.today
  past : ∀ s ∈ w.sent, s.day ≤ w.cfg.day
  /-- What was sent is accounted for before. -/
  spent : sentOn w.sent w.cfg.day ≤ w.cfg.spentToday
  spentLimit : w.cfg.spentToday ≤ w.largest w.cfg.day
  days : ∀ d, sentOn w.sent d ≤ w.largest d
  fair : ∀ s ∈ w.sent, s.Fair
  signed : ∀ x ∈ w.signed, ∃ calls n deadline, x = S.executeDigest calls n deadline ∧ n < w.cfg.nonce
  nodup : w.signed.Nodup

def Wallet.spentNow (w : Wallet) : Nat := if w.cfg.day = w.today then w.cfg.spentToday else 0

structure Same (w w' : Wallet) : Prop where
  lease : w'.cfg.lease = w.cfg.lease
  dailyLimit : w'.cfg.dailyLimit = w.cfg.dailyLimit
  perTxLimit : w'.cfg.perTxLimit = w.cfg.perTxLimit
  allowed : w'.cfg.allowed = w.cfg.allowed
  now : w'.now = w.now
  largest : w'.largest = w.largest
  day : w.cfg.day = w.today → w'.cfg.day = w'.today

/-- What calls by others guarantee: of today's account they use only what they have added to it. -/
structure Guaranteed (account : Address) (S : Signing) (w w' : Wallet) : Prop where
  sound : Sound account S w'
  same : Same w w'
  reserve : w'.spentNow + sentOn w.sent w.today = w.spentNow + sentOn w'.sent w.today

variable {account : Address} {S : Signing} {w w' w'' : Wallet}

theorem Same.refl (w : Wallet) : Same w w := ⟨rfl, rfl, rfl, rfl, rfl, rfl, id⟩

theorem Same.today (h : Same w w') : w'.today = w.today := by rw [Wallet.today, h.now, Wallet.today]

theorem Same.trans (h : Same w w') (h' : Same w' w'') : Same w w'' where
  lease := h'.lease.trans h.lease
  dailyLimit := h'.dailyLimit.trans h.dailyLimit
  perTxLimit := h'.perTxLimit.trans h.perTxLimit
  allowed := h'.allowed.trans h.allowed
  now := h'.now.trans h.now
  largest := h'.largest.trans h.largest
  day := fun hd => h'.day (h.day hd)

theorem Same.record (w : Wallet) (a : Auth) (call : Outgoing) : Same w (w.record (some a) call) :=
  ⟨rfl, rfl, rfl, rfl, rfl, rfl, id⟩

theorem guarantee (account : Address) (S : Signing) : Guarantee (Sound account S) (Guaranteed account S) where
  refl := fun w h => ⟨h, .refl w, rfl⟩
  trans := by
    intro w₁ w₂ w₃ h₁ h₂
    refine ⟨h₂.sound, h₁.same.trans h₂.same, ?_⟩
    have hr₁ := h₁.reserve
    have hr₂ := h₂.reserve
    rw [h₁.same.today] at hr₂
    omega
  post := fun w w' h => h.sound

section Check

variable {calls : List Outgoing} {key : Address} {c : Config}

def value (calls : List Outgoing) : Nat := (calls.map Outgoing.value).sum

/-- The calls keep to the limit per call and to the listed targets. -/
def Config.Allows (c : Config) (calls : List Outgoing) : Prop :=
  ∀ call ∈ calls, call.value ≤ c.perTxLimit.val ∧ c.allowed call.dest = true

theorem Config.total_spec {t : Nat} (h : c.total calls = some t) : t = value calls ∧ c.Allows calls := by
  induction calls using List.reverseRecOn generalizing t with
  | nil =>
    cases h
    exact ⟨rfl, nofun⟩
  | append_singleton calls call ih =>
    simp only [total, List.foldlM_append, List.foldlM_cons, List.foldlM_nil, Option.bind_eq_bind, Option.pure_def,
      Option.bind_eq_some_iff, Checked.require_eq_some, Checked.add_eq_some, exists_const] at h
    obtain ⟨t₀, h₀, t₁, ⟨hallowed, hle, -, rfl⟩, ht⟩ := h
    cases ht
    obtain ⟨rfl, hall⟩ := ih h₀
    refine ⟨by simp [value], fun x hx => ?_⟩
    obtain hx | hx := List.mem_append.1 hx
    · exact hall x hx
    · obtain rfl := List.mem_singleton.1 hx
      exact ⟨hle, hallowed⟩

theorem Wallet.check_spec (h : w.check key calls = some w') :
    w.cfg.lease ≠ 0 ∧ key = w.activeSigner w.cfg.lease ∧ w.cfg.Allows calls ∧
      w.spentNow + value calls ≤ w.cfg.dailyLimit.val ∧
      w' = { w with cfg := { w.cfg with day := w.today, spentToday := w.spentNow + value calls } } := by
  have hday : w.cfg.onDay w.today = { w.cfg with day := w.today, spentToday := w.spentNow } := by
    unfold Config.onDay spentNow
    split
    · rename_i hd
      rw [← hd]
    · rfl
  simp only [check, hday, bind, Option.bind_eq_some_iff, Checked.require_eq_some, Checked.add_eq_some,
    exists_const] at h
  obtain ⟨⟨hlease, hkey⟩, t, ht, sum, ⟨-, rfl⟩, hle, s, ⟨-, rfl⟩, hw⟩ := h
  obtain ⟨rfl, hall⟩ := Config.total_spec ht
  have hmod : value calls % 2 ^ 128 = value calls := Nat.mod_eq_of_lt (by omega)
  rw [hmod] at hw
  exact ⟨hlease, hkey, hall, hle, (Option.some_inj.1 hw).symm⟩

end Check

theorem Sound.sentOn_today (h : Sound account S w) : sentOn w.sent w.today ≤ w.spentNow := by
  unfold Wallet.spentNow
  split
  · rename_i hd
    rw [← hd]
    exact h.spent
  · rename_i hd
    have hday := h.day
    rw [sentOn_eq_zero fun s hs => by have := h.past s hs; omega]

theorem Sound.check {calls : List Outgoing} {key : Address} (h : Sound account S w)
    (hc : w.check key calls = some w') : Sound account S w' := by
  obtain ⟨-, -, -, hle, rfl⟩ := Wallet.check_spec hc
  have hlimit := h.limit
  have hsent := h.sentOn_today
  exact {
    notSelf := h.notSelf
    limit := hlimit
    day := le_rfl
    past := fun s hs => le_trans (h.past s hs) h.day
    spent := le_trans hsent (Nat.le_add_right _ _)
    spentLimit := le_trans hle hlimit
    days := h.days
    fair := h.fair
    signed := h.signed
    nodup := h.nodup }

section Send

variable {a : Auth} {call : Outgoing} {calls : List Outgoing} {base : Nat}

theorem Sound.record (h : Sound account S w) (hd : w.cfg.day = w.today) (ha : a.key = a.signer ∧ a.signer ≠ 0)
    (hcall : call.value ≤ w.cfg.perTxLimit.val ∧ w.cfg.allowed call.dest = true)
    (hres : sentOn w.sent w.today + call.value ≤ w.cfg.spentToday) : Sound account S (w.record (some a) call) := by
  have htoday : sentOn (w.record (some a) call).sent w.today = call.value + sentOn w.sent w.today := by
    rw [Wallet.record, sentOn_cons, if_pos rfl]
  exact {
    notSelf := h.notSelf
    limit := h.limit
    day := h.day
    past := fun s hs => by
      obtain rfl | hs := List.mem_cons.1 hs
      · exact hd.ge
      · exact h.past s hs
    spent := by
      have : sentOn (w.record (some a) call).sent w.cfg.day ≤ w.cfg.spentToday := by
        rw [hd, htoday]
        omega
      exact this
    spentLimit := h.spentLimit
    days := fun d => by
      by_cases hday : w.today = d
      · subst hday
        have := h.spentLimit
        rw [hd] at this
        have hle : sentOn (w.record (some a) call).sent w.today ≤ w.largest w.today := by omega
        exact hle
      · have hsame : sentOn (w.record (some a) call).sent d = sentOn w.sent d := by
          rw [Wallet.record, sentOn_cons, if_neg hday, Nat.zero_add]
        exact hsame.trans_le (h.days d)
    fair := fun s hs => by
      obtain rfl | hs := List.mem_cons.1 hs
      · exact ⟨hcall.1, hcall.2, ha⟩
      · exact h.fair s hs
    signed := h.signed
    nodup := h.nodup }

variable {refuses : Address → Prop}

/-- The signer's batch runs within what the check has put in reserve, whatever its targets do. -/
theorem run_ends (h : Sound account S w) (hd : w.cfg.day = w.today) (ha : a.key = a.signer ∧ a.signer ≠ 0)
    (hcalls : w.cfg.Allows calls)
    (hres : w.cfg.spentToday = sentOn w.sent w.today + base + value calls) :
    (run account (some a) calls w).Ends refuses (Sound account S) (Guaranteed account S) fun _ w' =>
      Sound account S w' ∧ Same w w' ∧ w'.cfg.day = w'.today ∧ w'.cfg.spentToday = sentOn w'.sent w'.today + base := by
  induction calls generalizing w with
  | nil => exact ⟨h, .refl w, hd, hres⟩
  | cons call calls ih =>
    have hcall := hcalls call List.mem_cons_self
    have hdest : call.dest ≠ account := by
      intro heq
      rw [heq, h.notSelf] at hcall
      exact absurd hcall.2 (by simp)
    have hvalue : value (call :: calls) = call.value + value calls := by simp [value]
    rw [run, Call.ends_bind, callOut, if_neg hdest, Call.ends_bind]
    refine Call.ends_send ?_ (fun _ => ?_) (fun hn => nomatch hn)
    · intro sent hsent
      cases hsent
      have hsound := h.record hd ha hcall (by omega)
      refine ⟨hsound, fun w₁ h₁ => ?_⟩
      -- the target is done: what is left of the batch is still in reserve
      have hsame : Same w w₁ := (Same.record w a call).trans h₁.same
      have hd₁ := hsame.day hd
      have hres₁ := h₁.reserve
      have hrec : sentOn (w.record (some a) call).sent w.today = call.value + sentOn w.sent w.today := by
        rw [Wallet.record, sentOn_cons, if_pos rfl]
      have hnow : (w.record (some a) call).spentNow = w.cfg.spentToday := if_pos hd
      have hnow₁ : w₁.spentNow = w₁.cfg.spentToday := if_pos hd₁
      have htoday : (w.record (some a) call).today = w.today := rfl
      rw [htoday, hrec, hnow, hnow₁] at hres₁
      rw [Call.ends_require]
      intro _
      refine (ih h₁.sound hd₁ (fun x hx => ?_) ?_).mono fun _ w₂ h₂ => ⟨h₂.1, hsame.trans h₂.2.1, h₂.2.2⟩
      · rw [hsame.perTxLimit, hsame.allowed]
        exact hcalls x (List.mem_cons_of_mem call hx)
      · rw [hsame.today]
        omega
    · rw [Call.ends_require]
      exact fun hf => absurd hf (by simp)

end Send

section Entries

variable {refuses : Address → Prop} {calls : List Outgoing} {key : Address}

theorem checkAndRun_ends (h : Sound account S w) (hkey : key ≠ 0) :
    (checkAndRun account key calls w).Ends refuses (Sound account S) (Guaranteed account S) fun _ =>
      Guaranteed account S w := by
  simp only [checkAndRun, Call.ends_bind, Call.ends_get, Call.ends_update]
  intro w₁ h₁
  obtain ⟨-, hk, hall, -, hw₁⟩ := Wallet.check_spec h₁
  have hsound := h.check h₁
  have hsame : Same w w₁ := by
    rw [hw₁]
    exact ⟨rfl, rfl, rfl, rfl, rfl, rfl, fun _ => rfl⟩
  have hd₁ : w₁.cfg.day = w₁.today := by rw [hw₁]; rfl
  have hall₁ : w₁.cfg.Allows calls := by rw [hw₁]; exact hall
  have hsent : w₁.sent = w.sent := by rw [hw₁]
  have hspent : w₁.cfg.spentToday = w.spentNow + value calls := by rw [hw₁]
  have hle := h.sentOn_today
  have hres : w₁.cfg.spentToday = sentOn w₁.sent w₁.today + (w.spentNow - sentOn w.sent w.today) + value calls := by
    rw [hspent, hsent, hsame.today]
    omega
  refine (run_ends hsound hd₁ ⟨hk, hk ▸ hkey⟩ hall₁ hres).mono fun _ w₂ h₂ => ?_
  obtain ⟨hs₂, hsame₂, hd₂, hres₂⟩ := h₂
  have hall₂ := hsame.trans hsame₂
  refine ⟨hs₂, hall₂, ?_⟩
  have hnow : w₂.spentNow = w₂.cfg.spentToday := if_pos hd₂
  rw [hnow, hres₂, hall₂.today]
  omega

theorem executeSigned_ends {deadline : Nat} {sig : Consensus.Bytes} (h : Sound account S w) :
    (executeSigned account S calls deadline sig w).Ends refuses (Sound account S) (Guaranteed account S) fun _ =>
      Guaranteed account S w := by
  simp only [executeSigned, Call.ends_bind, Call.ends_get, Call.ends_require, Call.ends_lift, Call.ends_set,
    Checked.add_eq_some]
  rintro - hkey n ⟨-, rfl⟩
  have hnew : S.executeDigest calls w.cfg.nonce deadline ∉ w.signed := by
    intro hmem
    obtain ⟨calls', n, deadline', heq, hlt⟩ := h.signed _ hmem
    have := S.nonce_inj heq
    omega
  have hsound : Sound account S { w with
      cfg := { w.cfg with nonce := w.cfg.nonce + 1 }
      signed := S.executeDigest calls w.cfg.nonce deadline :: w.signed } :=
    { notSelf := h.notSelf
      limit := h.limit
      day := h.day
      past := h.past
      spent := h.spent
      spentLimit := h.spentLimit
      days := h.days
      fair := h.fair
      signed := fun x hx => by
        obtain rfl | hx := List.mem_cons.1 hx
        · exact ⟨calls, w.cfg.nonce, deadline, rfl, Nat.lt_succ_self _⟩
        · obtain ⟨calls', n, deadline', heq, hlt⟩ := h.signed x hx
          exact ⟨calls', n, deadline', heq, Nat.lt_succ_of_lt hlt⟩
      nodup := List.nodup_cons.2 ⟨hnew, h.nodup⟩ }
  refine (checkAndRun_ends hsound hkey).mono fun _ w' hw' => ?_
  refine ⟨hw'.sound, Same.trans ?_ hw'.same, hw'.reserve⟩
  exact ⟨rfl, rfl, rfl, rfl, rfl, rfl, id⟩

theorem entry_ends (op : Op) (h : Sound account S w) (hop : op.ByOthers account w) :
    (entry account S op w).Ends refuses (Sound account S) (Guaranteed account S) fun _ => Guaranteed account S w := by
  cases op with
  | execute sender calls =>
    rw [entry, execute, if_neg hop.1]
    exact checkAndRun_ends h hop.2
  | executeSigned calls deadline sig => exact executeSigned_ends h
  | own sender data =>
    simp only [entry, Call.ends_bind, Call.ends_require]
    exact fun hsender => absurd hsender hop
  | elsewhere activeSigner =>
    simp only [entry, Call.ends_update]
    rintro w' hw'
    cases hw'
    refine ⟨?_, ⟨rfl, rfl, rfl, rfl, rfl, rfl, id⟩, rfl⟩
    exact ⟨h.notSelf, h.limit, h.day, h.past, h.spent, h.spentLimit, h.days, h.fair, h.signed, h.nodup⟩

variable {l : List Address} {m : Address → Bool}

theorem allowed_of_not_mem {b : Bool} (h : account ∉ l) :
    l.foldl (Function.update · · b) m account = m account := by
  induction l generalizing m with
  | nil => rfl
  | cons x l ih =>
    rw [List.foldl_cons, ih (fun hm => h (List.mem_cons_of_mem x hm))]
    have hne : account ≠ x := by
      rintro rfl
      exact h List.mem_cons_self
    exact Function.update_of_ne hne _ _

theorem allowed_foldl_false (h : m account = false) :
    l.foldl (Function.update · · false) m account = false := by
  induction l generalizing m with
  | nil => exact h
  | cons x l ih =>
    rw [List.foldl_cons]
    apply ih
    by_cases hx : account = x
    · rw [hx, Function.update_self]
    · rw [Function.update_of_ne hx, h]

theorem Sound.selfCall {data : SelfCall} (h : Sound account S w) (hdata : data.NotListing account) :
    Sound account S (w.selfCall data) := by
  cases data with
  | configure lease dailyLimit perTxLimit targets =>
    have hlargest : ∀ d, w.largest d ≤ Function.update w.largest w.today (max (w.largest w.today) dailyLimit.val) d := by
      intro d
      by_cases hd : d = w.today
      · rw [hd, Function.update_self]
        exact le_max_left _ _
      · rw [Function.update_of_ne hd]
    exact {
      notSelf := (allowed_of_not_mem hdata).trans (allowed_foldl_false h.notSelf)
      limit := by
        have : dailyLimit.val ≤ Function.update w.largest w.today (max (w.largest w.today) dailyLimit.val) w.today := by
          rw [Function.update_self]
          exact le_max_right _ _
        exact this
      day := h.day
      past := h.past
      spent := h.spent
      spentLimit := le_trans h.spentLimit (hlargest _)
      days := fun d => le_trans (h.days d) (hlargest d)
      fair := h.fair
      signed := h.signed
      nodup := h.nodup }
  | revoke => exact ⟨h.notSelf, h.limit, h.day, h.past, h.spent, h.spentLimit, h.days, h.fair, h.signed, h.nodup⟩
  | other => exact h

theorem run_own_ends (h : Sound account S w)
    (hcalls : ∀ call ∈ calls, call.dest = account → call.data.NotListing account) :
    (run account none calls w).Ends refuses (Sound account S) (Guaranteed account S) fun _ => Sound account S := by
  induction calls generalizing w with
  | nil => exact h
  | cons call calls ih =>
    have hrest : ∀ c ∈ calls, c.dest = account → c.data.NotListing account :=
      fun c hc => hcalls c (List.mem_cons_of_mem call hc)
    rw [run, Call.ends_bind, callOut]
    split
    · rename_i hdest
      rw [Call.ends_update]
      intro w' hw'
      cases hw'
      exact ih (h.selfCall (hcalls call List.mem_cons_self hdest)) hrest
    · rw [Call.ends_bind]
      refine Call.ends_send ?_ (fun _ => ?_) (fun hn => nomatch hn)
      · intro sent hsent
        cases hsent
        refine ⟨h, fun w₁ h₁ => ?_⟩
        rw [Call.ends_require]
        exact fun _ => ih h₁.sound hrest
      · rw [Call.ends_require]
        exact fun hf => absurd hf (by simp)

theorem top_ends (op : Op) (h : Sound account S w) (hop : op.NotListing account w) :
    (entry account S op w).Ends refuses (Sound account S) (Guaranteed account S) fun _ => Sound account S := by
  cases op with
  | execute sender calls =>
    by_cases hs : sender = account
    · rw [entry, execute, if_pos hs]
      exact run_own_ends h (hop.2 hs)
    · exact (entry_ends (.execute sender calls) h ⟨hs, hop.1⟩).mono fun _ _ hw => hw.sound
  | executeSigned calls deadline sig => exact (executeSigned_ends h).mono fun _ _ hw => hw.sound
  | own sender data =>
    simp only [entry, Call.ends_bind, Call.ends_require, Call.ends_update]
    intro _ w' hw'
    cases hw'
    exact h.selfCall hop
  | elsewhere activeSigner => exact (entry_ends (.elsewhere activeSigner) h trivial).mono fun _ _ hw => hw.sound

theorem Sound.passes (h : Sound account S w) (hp : Passes w w') : Sound account S w' := by
  obtain ⟨t, activeSigner, ht, rfl⟩ := hp
  have hlargest : ∀ d, w.largest d ≤ Function.update w.largest (t / 86400)
      (max (w.largest (t / 86400)) w.cfg.dailyLimit.val) d := by
    intro d
    by_cases hd : d = t / 86400
    · rw [hd, Function.update_self]
      exact le_max_left _ _
    · rw [Function.update_of_ne hd]
  exact {
    notSelf := h.notSelf
    limit := by
      have : w.cfg.dailyLimit.val ≤ Function.update w.largest (t / 86400)
          (max (w.largest (t / 86400)) w.cfg.dailyLimit.val) (t / 86400) := by
        rw [Function.update_self]
        exact le_max_right _ _
      exact this
    day := le_trans h.day (Nat.div_le_div_right ht)
    past := h.past
    spent := h.spent
    spentLimit := le_trans h.spentLimit (hlargest _)
    days := fun d => le_trans (h.days d) (hlargest d)
    fair := h.fair
    signed := h.signed
    nodup := h.nodup }

end Entries

/-- Over every run of calls by others, re-entrant ones too, and of the owner's own calls and batches,
in which the account is not listed as its own target: what is sent for the signer on a day is at most
the largest daily limit in force on it; each such call is within the limit per call, to a listed
target, and authorised by the lease's active signer; and no signed batch is executed twice. -/
theorem limits_hold (account : Address) (S : Signing) (refuses : Address → Prop) (now : Nat)
    (activeSigner : Nat → Address) (w : Wallet)
    (h : Run refuses (entry account S) (Op.ByOthers account) (Op.NotListing account) Passes
      (.fresh now activeSigner) w) :
    (∀ day, sentOn w.sent day ≤ w.largest day) ∧ (∀ s ∈ w.sent, s.Fair) ∧ w.signed.Nodup := by
  have hfresh : Sound account S (.fresh now activeSigner) := by
    refine ⟨rfl, le_rfl, Nat.zero_le _, nofun, le_rfl, le_rfl, fun _ => le_rfl, nofun, nofun, List.nodup_nil⟩
  have hw := h.keeps (guarantee account S) (fun op w hw hop => entry_ends op hw hop)
    (fun op w hw hop => top_ends op hw hop) (fun w w' hw hp => hw.passes hp) hfresh
  exact ⟨hw.days, hw.fair, hw.nodup⟩

section Mock

def mockSigning : Signing := ⟨fun _ n _ => n, fun _ _ => 9, id⟩

def mockCalls : List Outgoing := [⟨3, 5, .other⟩]

/-- The owner of account 1 lets the signer of lease 4 send up to 10 a day, 5 at once, to account 3. -/
def mockConfigured : Wallet := (Wallet.fresh 0 fun _ => 9).selfCall (.configure 4 10 5 [3])

def mockChecked : Option Wallet := mockConfigured.check 9 mockCalls

theorem limits_hold_mock : ∃ w : Wallet, sentOn w.sent 0 = 5 ∧ w.largest 0 = 10 ∧
    (∀ day, sentOn w.sent day ≤ w.largest day) ∧ (∀ s ∈ w.sent, s.Fair) ∧ w.signed.Nodup := by
  obtain ⟨c, hc⟩ : ∃ c, mockChecked = some c := Option.isSome_iff_exists.1 (by decide)
  have hown : Reentry.Finishes (fun _ => True) (entry 1 mockSigning) (Op.ByOthers 1)
      (entry 1 mockSigning (.own 1 (.configure 4 10 5 [3])) (.fresh 0 fun _ => 9)) mockConfigured := .ret _
  have hsend : Reentry.Finishes (fun _ => True) (entry 1 mockSigning) (Op.ByOthers 1)
      (entry 1 mockSigning (.execute 9 mockCalls) mockConfigured) (c.record (some ⟨9, 9⟩) ⟨3, 5, .other⟩) := by
    have hcode : entry 1 mockSigning (.execute 9 mockCalls) mockConfigured =
        (mockChecked.elim .revert fun s => Code.ret s ()).bind fun _ => run 1 (some ⟨9, 9⟩) mockCalls := rfl
    rw [hcode, hc]
    exact .accepted (.refl _) (.ret _)
  have hconf : Run (fun _ => True) (entry 1 mockSigning) (Op.ByOthers 1) (Op.NotListing 1) Passes
      (.fresh 0 fun _ => 9) mockConfigured :=
    .call (.own 1 (.configure 4 10 5 [3])) (.refl _) (show 1 ∉ [3] by decide) hown
  have hrun : Run (fun _ => True) (entry 1 mockSigning) (Op.ByOthers 1) (Op.NotListing 1) Passes
      (.fresh 0 fun _ => 9) (c.record (some ⟨9, 9⟩) ⟨3, 5, .other⟩) :=
    .call (.execute 9 mockCalls) hconf ⟨by decide, fun h => absurd h (by decide)⟩ hsend
  have hend : mockChecked.map (fun c => (sentOn (c.record (some ⟨9, 9⟩) ⟨3, 5, .other⟩).sent 0, c.largest 0)) =
      some (5, 10) := by decide
  rw [hc, Option.map_some, Option.some_inj, Prod.mk.injEq] at hend
  exact ⟨_, hend.1, hend.2, limits_hold 1 mockSigning (fun _ => True) 0 (fun _ => 9) _ hrun⟩

end Mock

end Boltchain.Contracts.LimitedWallet
