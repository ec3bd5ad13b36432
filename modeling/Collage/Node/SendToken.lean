import Mathlib.Algebra.Ring.Nat
import Mathlib.Data.List.Perm.Subperm
import Mathlib.Data.List.Nodup
import Mathlib.Order.Nat
import Collage.Lib.Run

/-!
# The send token of a node

Nodes acquire the send token of one node, which hands it out and takes it back in its command thread
(`localNode.cpp`). Each node has a connection to that node, on which commands are in order. A token
that is not returned in time is replaced by a new one. Grants are numbered here, to tell them apart.
-/

namespace Collage.SendToken

def timeoutIndefinite : ℕ := 2 ^ 32 - 1

/-- The token as it was given to a node, with the number and the time of the grant. -/
structure Grant (N : Type) where
  node : N
  index : ℕ
  time : ℕ
  deriving DecidableEq

/-- `CMD_NODE_ACQUIRE_SEND_TOKEN` and `CMD_NODE_RELEASE_SEND_TOKEN`. The grant is not sent. -/
inductive Command (N : Type)
  | acquire (request : ℕ)
  | release (grant : Grant N)
  deriving DecidableEq

def Command.released? {N : Type} : Command N → Option (Grant N)
  | .acquire _ => none
  | .release grant => some grant

structure World (N : Type) where
  now : ℕ
  sendToken : Bool
  lastSendToken : ℕ
  sendTokenQueue : List (N × ℕ)
  /-- The commands of each node that are not processed. -/
  commands : N → List (Command N)
  /-- The replies `CMD_NODE_ACQUIRE_SEND_TOKEN_REPLY` to each node. -/
  replies : N → List (ℕ × Grant N)
  /-- The registered requests of each node. -/
  requests : N → List ℕ
  nextRequest : N → ℕ
  /-- The tokens that each node has acquired and not released. -/
  held : N → List (Grant N)
  grants : ℕ
  lastGrant : ℕ

inductive Event (N : Type)
  | tick (time : ℕ)
  /-- `acquireSendToken`, up to the wait for the reply. -/
  | acquire (n : N)
  /-- The wait times out. -/
  | giveUp (n : N) (request : ℕ)
  /-- `_cmdAcquireSendTokenReply`. -/
  | reply (n : N)
  /-- `SendToken::release`. -/
  | release (n : N) (grant : Grant N)
  /-- The next command of a node is processed. -/
  | command (n : N)

namespace World

variable {N : Type} [DecidableEq N]

def init : World N where
  now := 0
  sendToken := true
  lastSendToken := 0
  sendTokenQueue := []
  commands := fun _ => []
  replies := fun _ => []
  requests := fun _ => []
  nextRequest := fun _ => 0
  held := fun _ => []
  grants := 0
  lastGrant := 0

variable (timeout : ℕ) (w : World N)

def grant (n : N) (request : ℕ) : World N :=
  { w with
    replies := Function.update w.replies n (w.replies n ++ [(request, ⟨n, w.grants, w.now⟩)])
    grants := w.grants + 1
    lastGrant := w.now }

def cmdAcquireSendToken (n : N) (request : ℕ) : World N :=
  if w.sendToken = false then
    if timeout = timeoutIndefinite ∨ w.now - w.lastSendToken ≤ timeout then
      { w with sendTokenQueue := w.sendTokenQueue ++ [(n, request)] }
    else { w with sendTokenQueue := [], sendToken := false }.grant n request
  else { w with sendToken := false }.grant n request

def cmdReleaseSendToken : World N :=
  if w.sendToken = true then { w with lastSendToken := w.now }
  else
    match w.sendTokenQueue with
    | [] => { w with lastSendToken := w.now, sendToken := true }
    | (n, request) :: queue =>
        { w with lastSendToken := w.now, sendTokenQueue := queue }.grant n request

def step (w : World N) : Event N → Option (World N)
  | .tick time => some { w with now := w.now + time }
  | .acquire n =>
      some { w with
        requests := Function.update w.requests n (w.requests n ++ [w.nextRequest n])
        nextRequest := Function.update w.nextRequest n (w.nextRequest n + 1)
        commands := Function.update w.commands n
          (w.commands n ++ [.acquire (w.nextRequest n)]) }
  | .giveUp n request =>
      some { w with requests := Function.update w.requests n ((w.requests n).erase request) }
  | .reply n =>
      match w.replies n with
      | [] => none
      | (request, grant) :: replies =>
          some { w with
            replies := Function.update w.replies n replies
            requests := Function.update w.requests n ((w.requests n).erase request)
            held := Function.update w.held n
              (if request ∈ w.requests n then w.held n ++ [grant] else w.held n) }
  | .release n grant =>
      if grant ∈ w.held n then
        some { w with
          held := Function.update w.held n ((w.held n).erase grant)
          commands := Function.update w.commands n (w.commands n ++ [.release grant]) }
      else none
  | .command n =>
      match w.commands n with
      | [] => none
      | .acquire request :: commands =>
          some ({ w with commands := Function.update w.commands n commands }.cmdAcquireSendToken
            timeout n request)
      | .release _ :: commands =>
          some { w with commands := Function.update w.commands n commands }.cmdReleaseSendToken

/-- The grants to a node whose release is not processed. -/
def tokens (n : N) : List (Grant N) :=
  (w.replies n).map Prod.snd ++ (w.held n ++ (w.commands n).filterMap Command.released?)

end World

/-- Tokens of the nodes, of which any two were granted more than the timeout apart. -/
structure Spaced {N : Type} (timeout : ℕ) (tokens : N → List (Grant N)) (grants lastGrant : ℕ) :
    Prop where
  nodup : ∀ n, (tokens n).Nodup
  node : ∀ n, ∀ g ∈ tokens n, g.node = n
  index : ∀ n, ∀ g ∈ tokens n, g.index < grants
  time : ∀ n, ∀ g ∈ tokens n, g.time ≤ lastGrant
  same : ∀ n n', ∀ g ∈ tokens n, ∀ g' ∈ tokens n', g.index = g'.index → g = g'
  spaced : ∀ n n', ∀ g ∈ tokens n, ∀ g' ∈ tokens n', g.index < g'.index →
    g.time + timeout < g'.time

namespace Spaced

variable {N : Type} {timeout grants lastGrant now : ℕ} {tokens tokens' : N → List (Grant N)}

theorem mono (h : Spaced timeout tokens grants lastGrant)
    (hsub : ∀ n, (tokens' n).Subperm (tokens n)) : Spaced timeout tokens' grants lastGrant where
  nodup := fun n => by
    obtain ⟨l, hperm, hl⟩ := hsub n
    exact hperm.nodup_iff.1 ((h.nodup n).sublist hl)
  node := fun n g hg => h.node n g ((hsub n).subset hg)
  index := fun n g hg => h.index n g ((hsub n).subset hg)
  time := fun n g hg => h.time n g ((hsub n).subset hg)
  same := fun n n' g hg g' hg' => h.same n n' g ((hsub n).subset hg) g' ((hsub n').subset hg')
  spaced := fun n n' g hg g' hg' =>
    h.spaced n n' g ((hsub n).subset hg) g' ((hsub n').subset hg')

theorem grant [DecidableEq N] (h : Spaced timeout tokens grants lastGrant) (n₀ : N)
    (hlast : lastGrant ≤ now) (hold : ∀ n, ∀ g ∈ tokens n, g.time + timeout < now)
    (htokens : ∀ n, (tokens' n).Perm
      (if n = n₀ then ⟨n₀, grants, now⟩ :: tokens n else tokens n)) :
    Spaced timeout tokens' (grants + 1) now := by
  have hmem {n : N} {g : Grant N} (hg : g ∈ tokens' n) :
      g ∈ tokens n ∨ (n = n₀ ∧ g = ⟨n₀, grants, now⟩) := by
    have hg' := (htokens n).mem_iff.1 hg
    split_ifs at hg' with hn
    · rcases List.mem_cons.1 hg' with rfl | hg'
      · exact Or.inr ⟨hn, rfl⟩
      · exact Or.inl hg'
    · exact Or.inl hg'
  refine ⟨fun n => ?_, fun n g hg => ?_, fun n g hg => ?_, fun n g hg => ?_,
    fun n n' g hg g' hg' heq => ?_, fun n n' g hg g' hg' hlt => ?_⟩
  · rw [(htokens n).nodup_iff]
    split_ifs with hn
    · refine List.nodup_cons.2 ⟨fun hg => ?_, h.nodup n⟩
      exact absurd (h.index n _ hg) (lt_irrefl grants)
    · exact h.nodup n
  · rcases hmem hg with hg | ⟨rfl, rfl⟩
    · exact h.node n g hg
    · rfl
  · rcases hmem hg with hg | ⟨-, rfl⟩
    · exact Nat.lt_succ_of_lt (h.index n g hg)
    · exact Nat.lt_succ_self grants
  · rcases hmem hg with hg | ⟨-, rfl⟩
    · exact (h.time n g hg).trans hlast
    · exact le_rfl
  · rcases hmem hg with hg | ⟨-, rfl⟩ <;> rcases hmem hg' with hg' | ⟨-, rfl⟩
    · exact h.same n n' g hg g' hg' heq
    · exact absurd heq (h.index n g hg).ne
    · exact absurd heq (h.index n' g' hg').ne'
    · rfl
  · rcases hmem hg with hg | ⟨-, rfl⟩ <;> rcases hmem hg' with hg' | ⟨-, rfl⟩
    · exact h.spaced n n' g hg g' hg' hlt
    · exact hold n g hg
    · exact absurd (h.index n' g' hg') (not_lt.2 hlt.le)
    · exact absurd hlt (lt_irrefl grants)

theorem old_of_last (h : Spaced timeout tokens grants lastGrant) (hlast : lastGrant ≤ now)
    {n₀ : N} {g₀ : Grant N} (hg₀ : g₀ ∈ tokens n₀) (hindex : g₀.index + 1 = grants)
    {n : N} {g : Grant N} (hg : g ∈ tokens n) (hne : g ≠ g₀) : g.time + timeout < now := by
  have hlt : g.index < g₀.index := by
    have hle := h.index n g hg
    have hdiff : g.index ≠ g₀.index := fun heq => hne (h.same n n₀ g hg g₀ hg₀ heq)
    omega
  have hspaced := h.spaced n n₀ g hg g₀ hg₀ hlt
  have htime := h.time n₀ g₀ hg₀
  omega

end Spaced

namespace World

variable {N : Type} [DecidableEq N] {timeout : ℕ} {w w' : World N}

/-- The tokens of the nodes are spaced, and those that are around while the token is available are
too old. -/
structure Exclusive (timeout : ℕ) (w : World N) : Prop where
  spaced : Spaced timeout w.tokens w.grants w.lastGrant
  last : w.lastGrant ≤ w.now
  available : w.sendToken = true → ∀ n, ∀ g ∈ w.tokens n, g.time + timeout < w.now

omit [DecidableEq N] in
theorem exclusive_init : (init : World N).Exclusive timeout where
  spaced := ⟨fun _ => List.nodup_nil, nofun, nofun, nofun, nofun, nofun⟩
  last := le_rfl
  available := nofun

/-- A token that is away is replaced only when the last grant is too old. A release that is accepted
is the one of the last grant. -/
def Accountable (timeout : ℕ) (w : World N) : Event N → Prop
  | .command n => ∀ command ∈ (w.commands n).head?, w.sendToken = false →
      match command with
      | .acquire _ => timeout < w.now - w.lastSendToken → w.lastGrant + timeout < w.now
      | .release grant => grant.index + 1 = w.grants
  | _ => True

namespace Exclusive

omit [DecidableEq N] in
theorem mono (h : w.Exclusive timeout) (hsub : ∀ n, (w'.tokens n).Subperm (w.tokens n))
    (hgrants : w'.grants = w.grants) (hlastGrant : w'.lastGrant = w.lastGrant)
    (hnow : w.now ≤ w'.now) (htoken : w'.sendToken = w.sendToken) : w'.Exclusive timeout where
  spaced := by
    rw [hgrants, hlastGrant]
    exact h.spaced.mono hsub
  last := hlastGrant ▸ h.last.trans hnow
  available := fun htrue n g hg =>
    (h.available (htoken ▸ htrue) n g ((hsub n).subset hg)).trans_le hnow

omit [DecidableEq N] in
theorem old_of_last (h : w.Exclusive timeout) (hlast : w.lastGrant + timeout < w.now) (n : N)
    (g : Grant N) (hg : g ∈ w.tokens n) : g.time + timeout < w.now := by
  have htime := h.spaced.time n g hg
  omega

theorem grant (h : w.Exclusive timeout) (hold : ∀ n, ∀ g ∈ w.tokens n, g.time + timeout < w.now)
    (htoken : w.sendToken = false) (n₀ : N) (request : ℕ) :
    (w.grant n₀ request).Exclusive timeout where
  spaced := by
    refine h.spaced.grant n₀ h.last hold (fun n => ?_)
    simp only [tokens, World.grant]
    rcases eq_or_ne n n₀ with rfl | hne
    · rw [if_pos rfl, Function.update_self, List.map_append, List.append_assoc]
      exact List.perm_middle
    · rw [if_neg hne, Function.update_of_ne hne]
  last := le_rfl
  available := fun htrue => by
    rw [World.grant, htoken] at htrue
    cases htrue

omit [DecidableEq N] in
theorem subperm_of_update (n₀ : N) (htokens : (w'.tokens n₀).Subperm (w.tokens n₀))
    (hreplies : ∀ n, n ≠ n₀ → w'.replies n = w.replies n)
    (hheld : ∀ n, n ≠ n₀ → w'.held n = w.held n)
    (hcommands : ∀ n, n ≠ n₀ → w'.commands n = w.commands n) (n : N) :
    (w'.tokens n).Subperm (w.tokens n) := by
  rcases eq_or_ne n n₀ with rfl | hne
  · exact htokens
  · rw [tokens, hreplies n hne, hheld n hne, hcommands n hne]
    exact List.Subperm.refl _

theorem tokens_pop {n₀ : N} {command : Command N} {commands : List (Command N)}
    (hcommands : w.commands n₀ = command :: commands) (n : N) :
    (({ w with commands := Function.update w.commands n₀ commands } : World N).tokens n).Subperm
      (w.tokens n) := by
  simp only [tokens]
  rcases eq_or_ne n n₀ with rfl | hne
  · rw [Function.update_self, hcommands]
    refine (List.Sublist.append_left (List.Sublist.append_left ?_ _) _).subperm
    exact (List.sublist_cons_self command commands).filterMap _
  · rw [Function.update_of_ne hne]

theorem not_mem_pop (h : w.Exclusive timeout) {n₀ : N} {g : Grant N} {commands : List (Command N)}
    (hcommands : w.commands n₀ = .release g :: commands) (n : N) :
    g ∉ ({ w with commands := Function.update w.commands n₀ commands } : World N).tokens n := by
  have hg : g ∈ w.tokens n₀ := by simp [tokens, hcommands, Command.released?]
  intro hmem
  have hn : n = n₀ := (h.spaced.node n g (tokens_pop hcommands n |>.subset hmem)).symm.trans
    (h.spaced.node n₀ g hg)
  subst hn
  have hperm : (w.tokens n).Perm
      (g :: ({ w with commands := Function.update w.commands n commands } : World N).tokens n) := by
    simp only [tokens, Function.update_self, hcommands, List.filterMap_cons, Command.released?,
      ← List.append_assoc]
    exact List.perm_middle
  exact (List.nodup_cons.1 (hperm.nodup_iff.1 (h.spaced.nodup n))).1 hmem

theorem command (h : w.Exclusive timeout) {n : N} (hok : w.Accountable timeout (.command n))
    (hstep : w.step timeout (.command n) = some w') : w'.Exclusive timeout := by
  simp only [World.step] at hstep
  split at hstep
  · cases hstep
  · rename_i request commands hcommands
    obtain rfl := Option.some.inj hstep
    have hpop := tokens_pop (w := w) hcommands
    have h' : ({ w with commands := Function.update w.commands n commands } : World N).Exclusive
        timeout := h.mono hpop rfl rfl le_rfl rfl
    unfold cmdAcquireSendToken
    split_ifs with htoken hwait
    · exact ⟨h'.spaced, h'.last, h'.available⟩
    · have hlast := hok (.acquire request) (hcommands ▸ rfl) htoken
        (not_le.1 (not_or.1 hwait).2)
      have hcleared : ({ w with
          commands := Function.update w.commands n commands
          sendTokenQueue := []
          sendToken := false } : World N).Exclusive timeout := ⟨h'.spaced, h'.last, nofun⟩
      exact hcleared.grant (h'.old_of_last hlast) rfl n request
    · have htaken : ({ w with
          commands := Function.update w.commands n commands
          sendToken := false } : World N).Exclusive timeout := ⟨h'.spaced, h'.last, nofun⟩
      exact htaken.grant (h'.available ((Bool.not_eq_false _).mp htoken)) rfl n request
  · rename_i grant commands hcommands
    obtain rfl := Option.some.inj hstep
    have hpop := tokens_pop (w := w) hcommands
    have h' : ({ w with commands := Function.update w.commands n commands } : World N).Exclusive
        timeout := h.mono hpop rfl rfl le_rfl rfl
    unfold cmdReleaseSendToken
    split_ifs with htoken
    · exact ⟨h'.spaced, h'.last, h'.available⟩
    · have hfalse : w.sendToken = false := (Bool.not_eq_true _).mp htoken
      have hindex : grant.index + 1 = w.grants := hok (.release grant) (hcommands ▸ rfl) hfalse
      have hold : ∀ n', ∀ g ∈ ({ w with
          commands := Function.update w.commands n commands } : World N).tokens n',
          g.time + timeout < w.now := by
        intro n' g hg
        have hgrant : grant ∈ w.tokens n := by
          simp [tokens, hcommands, Command.released?]
        refine h.spaced.old_of_last h.last hgrant hindex ((hpop n').subset hg) ?_
        rintro rfl
        exact h.not_mem_pop hcommands n' hg
      split
      · exact ⟨h'.spaced, h'.last, fun _ => hold⟩
      · rename_i n' request queue hqueue
        have hreleased : ({ w with
            commands := Function.update w.commands n commands
            lastSendToken := w.now
            sendTokenQueue := queue } : World N).Exclusive timeout :=
          ⟨h'.spaced, h'.last, h'.available⟩
        exact hreleased.grant hold hfalse n' request

theorem step (h : w.Exclusive timeout) {e : Event N} (hok : w.Accountable timeout e)
    (hstep : w.step timeout e = some w') : w'.Exclusive timeout := by
  cases e with
  | tick time =>
      obtain rfl := Option.some.inj hstep
      exact h.mono (fun _ => List.Subperm.refl _) rfl rfl (Nat.le_add_right _ _) rfl
  | acquire n =>
      obtain rfl := Option.some.inj hstep
      refine h.mono (subperm_of_update n ?_ (fun _ _ => rfl) (fun _ _ => rfl) (fun n hn => ?_))
        rfl rfl le_rfl rfl
      · simp only [tokens, Function.update_self, List.filterMap_append]
        exact (List.append_nil _).symm ▸ List.Subperm.refl _
      · exact Function.update_of_ne hn _ _
  | giveUp n request =>
      obtain rfl := Option.some.inj hstep
      exact h.mono (fun _ => List.Subperm.refl _) rfl rfl le_rfl rfl
  | reply n =>
      simp only [World.step] at hstep
      split at hstep
      · cases hstep
      · rename_i request grant replies hreplies
        obtain rfl := Option.some.inj hstep
        refine h.mono (subperm_of_update n ?_ (fun n hn => ?_) (fun n hn => ?_) (fun _ _ => rfl))
          rfl rfl le_rfl rfl
        · simp only [tokens, Function.update_self, hreplies, List.map_cons, List.cons_append]
          split_ifs
          · rw [List.append_assoc, List.singleton_append, ← List.append_assoc]
            exact List.perm_middle.subperm.trans (by rw [List.append_assoc])
          · exact (List.sublist_cons_self _ _).subperm
        · exact Function.update_of_ne hn _ _
        · exact Function.update_of_ne hn _ _
  | release n grant =>
      simp only [World.step] at hstep
      split_ifs at hstep with hheld
      obtain rfl := Option.some.inj hstep
      refine h.mono (subperm_of_update n ?_ (fun _ _ => rfl) (fun n hn => ?_) (fun n hn => ?_))
        rfl rfl le_rfl rfl
      · simp only [tokens, Function.update_self, List.filterMap_append]
        refine (List.Perm.append_left _ ?_).subperm
        rw [← List.append_assoc]
        refine List.perm_append_comm.trans ?_
        rw [← List.append_assoc]
        exact (List.perm_cons_erase hheld).symm.append_right _
      · exact Function.update_of_ne hn _ _
      · exact Function.update_of_ne hn _ _
  | command n => exact h.command hok hstep

end Exclusive

/-- Two nodes hold the token at the same time only if one of them was granted it more than the timeout
before the other one. -/
theorem holders_spaced {es : List (Event N)}
    (hok : Machine.Steps (World.step timeout) (Accountable timeout) init es)
    (hrun : Machine.run (World.step timeout) init es = some w) {n n' : N} (hne : n ≠ n')
    {g g' : Grant N} (hg : g ∈ w.held n) (hg' : g' ∈ w.held n') :
    (g.index < g'.index ∧ g.time + timeout < g'.time) ∨
      (g'.index < g.index ∧ g'.time + timeout < g.time) := by
  have h : w.Exclusive timeout := Machine.run_invariant (Exclusive timeout)
    (fun _ _ _ h hok hstep => h.step hok hstep) exclusive_init hok hrun
  have hmem : g ∈ w.tokens n := List.mem_append_right _ (List.mem_append_left _ hg)
  have hmem' : g' ∈ w.tokens n' := List.mem_append_right _ (List.mem_append_left _ hg')
  rcases lt_trichotomy g.index g'.index with hlt | heq | hlt
  · exact Or.inl ⟨hlt, h.spaced.spaced n n' g hmem g' hmem' hlt⟩
  · have hsame := h.spaced.same n n' g hmem g' hmem' heq
    rw [← h.spaced.node n g hmem, ← h.spaced.node n' g' hmem', hsame] at hne
    exact absurd rfl hne
  · exact Or.inr ⟨hlt, h.spaced.spaced n' n g' hmem' g hmem hlt⟩

instance decidableAccountable (timeout : ℕ) (w : World N) :
    (e : Event N) → Decidable (w.Accountable timeout e)
  | .command n =>
      have (command : Command N) : Decidable (match command with
          | .acquire _ => timeout < w.now - w.lastSendToken → w.lastGrant + timeout < w.now
          | .release grant => grant.index + 1 = w.grants) :=
        match command with
        | .acquire _ => inferInstanceAs (Decidable (_ → _))
        | .release _ => inferInstanceAs (Decidable (_ = _))
      inferInstanceAs (Decidable (∀ command ∈ (w.commands n).head?, w.sendToken = false → _))
  | .tick _ | .acquire _ | .giveUp _ _ | .reply _ | .release _ _ => isTrue trivial

/-- The token of a node that does not return it is replaced. -/
theorem holders_spaced_expired : ∃ w : World ℕ,
    Machine.run (World.step 5) init
        [.acquire 1, .command 1, .reply 1, .acquire 2, .tick 6, .command 2, .reply 2] = some w ∧
      w.held 1 = [⟨1, 0, 0⟩] ∧ w.held 2 = [⟨2, 1, 6⟩] ∧ 0 + 5 < 6 := by
  have h : (Machine.run (World.step 5) (init : World ℕ)
      [.acquire 1, .command 1, .reply 1, .acquire 2, .tick 6, .command 2, .reply 2]).map
        (fun w => decide (w.held 1 = [⟨1, 0, 0⟩] ∧ w.held 2 = [⟨2, 1, 6⟩])) = some true := by
    decide +kernel
  obtain ⟨w, hrun, hw⟩ := Option.map_eq_some_iff.1 h
  obtain ⟨h₁, h₂⟩ := of_decide_eq_true hw
  have hne : (1 : ℕ) ≠ 2 := by decide
  have hspaced := holders_spaced (by decide +kernel) hrun hne
    (h₁ ▸ List.mem_singleton_self _) (h₂ ▸ List.mem_singleton_self _)
  refine ⟨w, hrun, h₁, h₂, ?_⟩
  rcases hspaced with hspaced | hspaced
  · exact hspaced.2
  · exact absurd hspaced.1 (by decide)

/-- A node acquires the token after it was not used for long, and another one shortly after it. A token
has expired, and is returned late: a third node acquires the token that the second one holds. -/
theorem holders_overlap :
    (∃ w : World ℕ,
      Machine.run (World.step 5) init
          [.tick 10, .acquire 1, .command 1, .reply 1, .tick 1, .acquire 2, .command 2,
            .reply 2] = some w ∧
        w.held 1 = [⟨1, 0, 10⟩] ∧ w.held 2 = [⟨2, 1, 11⟩]) ∧
    ∃ w : World ℕ,
      Machine.run (World.step 5) init
          [.acquire 1, .command 1, .reply 1, .tick 6, .acquire 2, .command 2, .reply 2,
            .release 1 ⟨1, 0, 0⟩, .command 1, .acquire 3, .command 3, .reply 3] = some w ∧
        w.held 2 = [⟨2, 1, 6⟩] ∧ w.held 3 = [⟨3, 2, 6⟩] := by
  have h : (Machine.run (World.step 5) (init : World ℕ)
      [.tick 10, .acquire 1, .command 1, .reply 1, .tick 1, .acquire 2, .command 2, .reply 2]).map
        (fun w => decide (w.held 1 = [⟨1, 0, 10⟩] ∧ w.held 2 = [⟨2, 1, 11⟩])) = some true := by
    decide +kernel
  have h' : (Machine.run (World.step 5) (init : World ℕ)
      [.acquire 1, .command 1, .reply 1, .tick 6, .acquire 2, .command 2, .reply 2,
        .release 1 ⟨1, 0, 0⟩, .command 1, .acquire 3, .command 3, .reply 3]).map
        (fun w => decide (w.held 2 = [⟨2, 1, 6⟩] ∧ w.held 3 = [⟨3, 2, 6⟩])) = some true := by
    decide +kernel
  obtain ⟨w, hrun, hw⟩ := Option.map_eq_some_iff.1 h
  obtain ⟨w', hrun', hw'⟩ := Option.map_eq_some_iff.1 h'
  exact ⟨⟨w, hrun, of_decide_eq_true hw⟩, w', hrun', of_decide_eq_true hw'⟩

end World

end Collage.SendToken
