import HaoosLfs.Book.Templates
import HaoosLfs.Lib.LineFold
import HaoosLfs.Lib.Scan
import HaoosLfs.Lib.ShellWords

/-!
# The network file for systemd (`lfs.xsl:738-824`)

The book has one address for the gateway and for the name server. `outputsysdnet` takes
it for the gateway as long as the word `Gateway` is in the piece of text it works on. In
a text whose Gateway lines come before the DNS lines this is right for each line.
-/

namespace HaoosLfs.Book
open Text

def gatewayLine : Text := "Gateway=192.168.0.1".toList
def dnsLine : Text := "DNS=192.168.0.1".toList

/-- Only these lines have the word or the address, and no Gateway line follows a DNS line. -/
structure NetLines (ls : List Text) : Prop where
  gateway : ∀ l ∈ ls, contains l gatewayWord → l = gatewayLine
  address : ∀ l ∈ ls, contains l addr → l = gatewayLine ∨ l = dnsLine
  order : ls.Pairwise fun l m => ¬ (l = dnsLine ∧ m = gatewayLine)

def linePlaceholders (p : Params) : List RewriteRule :=
  [⟨"<network-device-name>".toList, always, p.interface⟩,
    ⟨"192.168.0.2".toList, always, p.ip⟩,
    ⟨"24".toList, always, p.netPrefix⟩,
    ⟨"<Your Domain Name>".toList, always, p.domain⟩]

def sysdnetLine (p : Params) (l : Text) : Text :=
  if l = gatewayLine then "Gateway=".toList ++ p.gateway
  else if l = dnsLine then
    "DNS=".toList ++ (p.nameserver1 ++ "\nDNS=".toList ++ p.nameserver2)
  else scan (linePlaceholders p) l

def meantPlaceholders (p : Params) : List RewriteRule :=
  [⟨"<network-device-name>".toList, always, p.interface⟩,
    ⟨gatewayLine, always, "Gateway=".toList ++ p.gateway⟩,
    ⟨dnsLine, always, "DNS=".toList ++ (p.nameserver1 ++ "\nDNS=".toList ++ p.nameserver2)⟩,
    ⟨"192.168.0.2".toList, always, p.ip⟩,
    ⟨"24".toList, always, p.netPrefix⟩,
    ⟨"<Your Domain Name>".toList, always, p.domain⟩]

def meantKeys : List Text :=
  ["<network-device-name>".toList, gatewayLine, dnsLine, "192.168.0.2".toList, "24".toList,
    "<Your Domain Name>".toList]

theorem meantKeys_eq (p : Params) : (meantPlaceholders p).map RewriteRule.key = meantKeys := rfl

theorem meant_apart (p : Params) :
    (meantPlaceholders p).Pairwise fun r r' => Apart r.key r'.key := by
  have hkeys : meantKeys.Pairwise Apart := by decide +kernel
  rw [← meantKeys_eq p] at hkeys
  exact List.pairwise_map.mp hkeys

theorem mem_meantKeys {p : Params} {r : RewriteRule} (h : r ∈ meantPlaceholders p) :
    r.key ∈ meantKeys := meantKeys_eq p ▸ List.mem_map_of_mem h

theorem meantKeys_ne_nil (p : Params) : ∀ r ∈ meantPlaceholders p, r.key ≠ [] := by
  have hkeys : ∀ k ∈ meantKeys, k ≠ [] := by decide
  exact fun r hr => hkeys r.key (mem_meantKeys hr)

theorem meant_always (p : Params) : ∀ r ∈ meantPlaceholders p, r.applies = always := by
  simp only [meantPlaceholders, List.forall_mem_cons, List.not_mem_nil]
  simp

/-! ### The pieces the template works on -/

/-- The word starts a Gateway line, which may be cut behind the `=`; an address belongs to
a Gateway line, or to a DNS line that no Gateway line follows. -/
structure GoodPiece (s : Text) : Prop where
  gateway : ∀ x y, s = x ++ (gatewayWord ++ y) →
    y = ['='] ∨ ∃ z, y = '=' :: (addr ++ z) ∧ ∀ c ∈ z.head?, c = '\n'
  address : ∀ x y, s = x ++ (addr ++ y) →
    "Gateway=".toList <:+ x ∨ "DNS=".toList <:+ x ∧ ¬ contains y gatewayWord

def sysdnetKeys : List Text :=
  ["<network-device-name>".toList, addr, "192.168.0.2".toList, "24".toList,
    "<Your Domain Name>".toList]

theorem sysdnetKeys_spec {k : Text} (h : k ∈ sysdnetKeys) :
    2 ≤ k.length ∧ '\n' ∉ k ∧
      (∀ c ∈ k.getLast?, c ∉ "Gateway=".toList ∧ c ∉ "DNS=".toList) ∧
      ∀ u ∈ ('=' :: addr).tails, k <+: u → u = addr := by
  have hall : ∀ k ∈ sysdnetKeys, 2 ≤ k.length ∧ '\n' ∉ k := by decide
  have hlast : ∀ k ∈ sysdnetKeys, k.getLastD '=' ∉ "Gateway=".toList ++ "DNS=".toList := by decide
  have hcut : ∀ k ∈ sysdnetKeys, ∀ u ∈ ('=' :: addr).tails, k <+: u → u = addr := by decide +kernel
  refine ⟨(hall k h).1, (hall k h).2, fun c hc => ?_, hcut k h⟩
  have hk := hlast k h
  rw [List.getLastD_eq_getLast?, Option.mem_def.mp hc, List.mem_append, not_or] at hk
  exact hk

theorem suffix_of_suffix_append {w z k x : Text} (h : w <:+ z ++ (k ++ x)) (hk : k ≠ [])
    (hlast : ∀ c ∈ k.getLast?, c ∉ w) : w <:+ x := by
  have hx : x <:+ z ++ (k ++ x) := ⟨z ++ k, by rw [List.append_assoc]⟩
  rcases List.suffix_or_suffix_of_suffix h hx with hw | ⟨u, rfl⟩
  · exact hw
  · rcases List.eq_nil_or_concat' u with rfl | ⟨u, c, rfl⟩
    · exact List.suffix_refl x
    · obtain ⟨v, hv⟩ := h
      rw [← List.append_assoc, ← List.append_assoc, ← List.append_assoc] at hv
      have hlast' := congrArg List.getLast? (List.append_cancel_right hv)
      rw [List.getLast?_concat, List.getLast?_append_of_ne_nil _ hk] at hlast'
      exact absurd (by simp) (hlast c hlast'.symm)

theorem GoodPiece.before {a k b : Text} (h : GoodPiece (a ++ (k ++ b))) (hk : k ∈ sysdnetKeys) :
    GoodPiece a := by
  obtain ⟨hlen, hnl, -, hcut⟩ := sysdnetKeys_spec hk
  constructor
  · rintro x y rfl
    rcases h.gateway x (y ++ (k ++ b)) (by simp only [List.append_assoc]) with hy | ⟨z, hy, hz⟩
    · have hlen' := congrArg List.length hy
      simp only [List.length_append, List.length_singleton] at hlen'
      omega
    · rw [← List.cons_append] at hy
      rcases List.append_eq_append_iff.mp hy with ⟨u, hu, hv⟩ | ⟨u, rfl, rfl⟩
      · -- the key starts inside `=192.168.0.1`
        have hku : k <+: u := by
          rcases prefix_or (List.prefix_append k b) (hv ▸ List.prefix_append u z) with hku | ⟨t, ht⟩
          · exact hku
          · rw [← ht, List.append_assoc] at hv
            rw [← List.append_cancel_left hv] at hz
            cases t with
            | nil => exact ⟨[], by rw [← ht, List.append_nil, List.append_nil]⟩
            | cons c t =>
              obtain rfl := hz c rfl
              exact absurd (by rw [← ht]; simp) hnl
        obtain rfl := hcut u (List.mem_tails _ _ |>.mpr ⟨y, hu.symm⟩) hku
        exact .inl (List.append_cancel_right (hu.symm.trans (List.singleton_append ..).symm))
      · refine .inr ⟨u, rfl, fun c hc => hz c ?_⟩
        cases u with
        | nil => cases hc
        | cons d u => exact hc
  · rintro x y rfl
    rcases h.address x (y ++ (k ++ b)) (by simp only [List.append_assoc]) with hx | ⟨hx, hy⟩
    · exact .inl hx
    · exact .inr ⟨hx, fun hc => hy (contains_append hc [] (k ++ b))⟩

theorem GoodPiece.after {a k b : Text} (h : GoodPiece (a ++ (k ++ b))) (hk : k ∈ sysdnetKeys) :
    GoodPiece b := by
  obtain ⟨hlen, -, hlast, -⟩ := sysdnetKeys_spec hk
  have hne : k ≠ [] := by
    rintro rfl
    cases hlen
  constructor
  · rintro x y rfl
    exact h.gateway (a ++ (k ++ x)) y (by simp only [List.append_assoc])
  · rintro x y rfl
    rcases h.address (a ++ (k ++ x)) y (by simp only [List.append_assoc]) with hx | ⟨hx, hy⟩
    · exact .inl (suffix_of_suffix_append hx hne fun c hc => (hlast c hc).1)
    · exact .inr ⟨suffix_of_suffix_append hx hne fun c hc => (hlast c hc).2, hy⟩

theorem GoodPiece.word_before {u v b : Text}
    (h : GoodPiece (u ++ (gatewayWord ++ v) ++ (addr ++ b)))
    (hfirst : ∀ x y, u ++ (gatewayWord ++ v) ++ (addr ++ b) = x ++ (addr ++ y) →
      (u ++ (gatewayWord ++ v)).length ≤ x.length) :
    "Gateway=".toList <:+ u ++ (gatewayWord ++ v) := by
  have hv := h.gateway u (v ++ (addr ++ b)) (by simp only [List.append_assoc])
  cases v with
  | nil =>
    -- the word is not followed by the address itself
    have haddr : addr = '1' :: addr.tail := rfl
    rw [List.nil_append, haddr] at hv
    rcases hv with hv | ⟨z, hv, -⟩
    · exact absurd (List.cons.inj hv).1 (by decide)
    · exact absurd (List.cons.inj hv).1 (by decide)
  | cons c v =>
    have hlen : v.length = 0 := by
      rcases hv with hv | ⟨z, hv, -⟩
      · have hlen := congrArg List.length hv
        simp only [List.length_append, List.length_cons, List.length_nil] at hlen
        omega
      · have hle := hfirst (u ++ "Gateway=".toList) z (by
          rw [List.append_assoc, List.append_assoc, hv]
          simp only [List.append_assoc]
          rfl)
        have hword : gatewayWord.length = 7 := rfl
        have hword' : "Gateway=".toList.length = 8 := rfl
        simp only [List.length_append, List.length_cons] at hle
        omega
    obtain rfl := List.length_eq_zero_iff.mp hlen
    have hc : c = '=' := by
      rcases hv with hv | ⟨z, hv, -⟩
      · exact (List.cons.inj hv).1
      · exact (List.cons.inj hv).1
    exact ⟨u, by rw [hc]; rfl⟩

theorem GoodPiece.first {a b : Text} (h : GoodPiece (a ++ (addr ++ b)))
    (hfirst : ∀ x y, a ++ (addr ++ b) = x ++ (addr ++ y) → a.length ≤ x.length) :
    contains (a ++ (addr ++ b)) gatewayWord ∧ "Gateway=".toList <:+ a ∨
      ¬ contains (a ++ (addr ++ b)) gatewayWord ∧ "DNS=".toList <:+ a := by
  by_cases hword : contains (a ++ (addr ++ b)) gatewayWord
  · refine .inl ⟨hword, ?_⟩
    rcases h.address a b rfl with ha | ⟨-, hb⟩
    · exact ha
    · have hall : (addr.all fun c => decide (c ∉ gatewayWord)) = true := by decide
      have hno : ∀ c ∈ addr, c ∉ gatewayWord :=
        fun c hc => of_decide_eq_true (List.all_eq_true.mp hall c hc)
      obtain ⟨u, v, rfl⟩ := contains_iff.mp
        ((contains_append_append (by decide) hno hword).resolve_right hb)
      exact h.word_before hfirst
  · refine .inr ⟨hword, ?_⟩
    rcases h.address a b rfl with ⟨u, rfl⟩ | ⟨ha, -⟩
    · refine absurd (contains_iff.mpr ⟨u, '=' :: (addr ++ b), ?_⟩) hword
      rw [List.append_assoc]
      rfl
    · exact ha

theorem scan_append_word {p : Params} {w : Text} (hw : w ∈ ["Gateway=".toList, "DNS=".toList])
    (x : Text) : scan (meantPlaceholders p) (x ++ w) = scan (meantPlaceholders p) x ++ w := by
  have hkeys : ∀ w ∈ ["Gateway=".toList, "DNS=".toList], ∀ k ∈ meantKeys,
      contains w k = false ∧ ∀ t ∈ k.tails.tail, t ≠ [] → ¬ t <+: w := by decide +kernel
  have hself : scan (meantPlaceholders p) w = w := by
    refine scan_eq_self fun r hr => ?_
    rw [(hkeys w hw r.key (mem_meantKeys hr)).1]
    exact Bool.false_ne_true
  rw [scan_append (cutsNoKey_of_tails (fun r hr => (hkeys w hw r.key (mem_meantKeys hr)).2) x),
    hself]

theorem gatewayLine_addr : contains gatewayLine addr := by decide

theorem dnsLine_addr : contains dnsLine addr := by decide

theorem gatewayLine_word : contains gatewayLine gatewayWord := by decide

/-! ### The template on a piece -/

theorem outputsysdnet_eq_body (p : Params) (s : Text) :
    outputsysdnet p s = rewriteBody (sysdnetRules p) id (outputsysdnet p) s := by
  have hne : ∀ r ∈ sysdnetRules p, r.key ≠ [] := by
    simp only [sysdnetRules, List.forall_mem_cons]
    decide
  exact (terminates_rewrite hne id).equation s

section
variable {p : Params} {s : Text} (h : GoodPiece s)
  (ih : ∀ t : Text, t.length < s.length → GoodPiece t →
    outputsysdnet p t = scan (meantPlaceholders p) t)
include h ih

theorem scan_plain (before : List RewriteRule) {after : List RewriteRule} {r : RewriteRule}
    (hrules : meantPlaceholders p = before ++ r :: after)
    (hbefore : ∀ r' ∈ before, ¬ contains s r'.key) (hkey : r.key ∈ sysdnetKeys)
    (hs : contains s r.key) :
    outputsysdnet p (substringBefore s r.key) ++
        (r.value ++ outputsysdnet p (substringAfter s r.key)) =
      scan (meantPlaceholders p) s := by
  have hne : r.key ≠ [] := by
    intro hnil
    have hlen := (sysdnetKeys_spec hkey).1
    rw [hnil] at hlen
    cases hlen
  have hgood : GoodPiece (substringBefore s r.key ++ (r.key ++ substringAfter s r.key)) := by
    rwa [← before_key_after hs]
  rw [ih _ (length_substringBefore hne hs) (hgood.before hkey),
    ih _ (length_substringAfter hne hs) (hgood.after hkey),
    scan_first (meant_apart p) hrules hbefore hne hs]

theorem scan_address (before : List RewriteRule) {after : List RewriteRule} {r : RewriteRule}
    {w v : Text}
    (hrules : meantPlaceholders p = before ++ r :: after)
    (hbefore : ∀ r' ∈ before, ¬ contains s r'.key) (hkey : r.key = w ++ addr)
    (hvalue : r.value = w ++ v) (hw : w ∈ ["Gateway=".toList, "DNS=".toList])
    (hs : contains s addr) (hword : w <:+ substringBefore s addr) :
    outputsysdnet p (substringBefore s addr) ++ (v ++ outputsysdnet p (substringAfter s addr)) =
      scan (meantPlaceholders p) s := by
  obtain ⟨⟨a, b⟩, hab⟩ := Option.isSome_iff_exists.mp hs
  obtain ⟨ha, hb⟩ := substring_of_splitFirst hab
  have hlen := length_substringBefore (show addr ≠ [] by decide) hs
  have hlen' := length_substringAfter (show addr ≠ [] by decide) hs
  rw [ha] at hword hlen
  rw [hb] at hlen'
  rw [ha, hb]
  obtain ⟨rfl, hfirst⟩ := splitFirst_eq_some_iff.mp hab
  obtain ⟨x, rfl⟩ := hword
  have hsplit : splitFirst r.key (x ++ w ++ (addr ++ b)) = some (x, b) := by
    rw [hkey, splitFirst_eq_some_iff]
    refine ⟨by simp only [List.append_assoc], fun u y hu => ?_⟩
    have hle := hfirst (u ++ w) y (by rw [hu]; simp only [List.append_assoc])
    simp only [List.length_append] at hle
    omega
  have hs' : contains (x ++ w ++ (addr ++ b)) r.key := by
    unfold contains
    rw [hsplit]
    rfl
  have hne : r.key ≠ [] := by
    rw [hkey]
    exact List.append_ne_nil_of_right_ne_nil w (by decide)
  obtain ⟨hx, hb'⟩ := substring_of_splitFirst hsplit
  have haddr : addr ∈ sysdnetKeys := by decide
  rw [ih _ hlen (h.before haddr), ih _ hlen' (h.after haddr), scan_append_word hw,
    scan_first (meant_apart p) hrules hbefore hne hs', hx, hb', hvalue]
  simp only [List.append_assoc]

theorem outputsysdnet_device (hdevice : contains s "<network-device-name>".toList) :
    outputsysdnet p s = scan (meantPlaceholders p) s := by
  rw [outputsysdnet_eq_body]
  refine (rewriteBody_first [] rfl (List.forall_mem_nil _) ⟨hdevice, rfl⟩).trans ?_
  exact scan_plain h ih [] rfl (List.forall_mem_nil _) List.mem_cons_self hdevice

theorem outputsysdnet_addr (hdevice : ¬ contains s "<network-device-name>".toList)
    (haddr : contains s addr) : outputsysdnet p s = scan (meantPlaceholders p) s := by
  have hfirst : ∀ r ∈ (meantPlaceholders p).take 1, ¬ contains s r.key :=
    List.forall_mem_cons.mpr ⟨hdevice, List.forall_mem_nil _⟩
  have hfirst' : ∀ r ∈ (sysdnetRules p).take 1, ¬ (contains s r.key ∧ r.applies s) :=
    List.forall_mem_cons.mpr ⟨fun hr => hdevice hr.1, List.forall_mem_nil _⟩
  obtain ⟨⟨a, b⟩, hab⟩ := Option.isSome_iff_exists.mp haddr
  obtain ⟨ha, -⟩ := substring_of_splitFirst hab
  obtain ⟨hs, hmin⟩ := splitFirst_eq_some_iff.mp hab
  have hmeaning := (hs ▸ h).first (hs ▸ hmin)
  rw [← hs] at hmeaning
  rw [outputsysdnet_eq_body]
  rcases hmeaning with ⟨hword, hw⟩ | ⟨hword, hw⟩
  · refine (rewriteBody_first ((sysdnetRules p).take 1) rfl hfirst' ⟨haddr, hword⟩).trans ?_
    exact scan_address h ih ((meantPlaceholders p).take 1) rfl hfirst rfl rfl
      List.mem_cons_self haddr (ha.symm ▸ hw)
  · have hno : ∀ r ∈ (sysdnetRules p).take 2, ¬ (contains s r.key ∧ r.applies s) :=
      List.forall_mem_append.mpr ⟨hfirst', List.forall_mem_cons.mpr
        ⟨fun hr => hword hr.2, List.forall_mem_nil _⟩⟩
    have hgateway : ¬ contains s gatewayLine :=
      fun hc => hword (contains_trans hc gatewayLine_word)
    have hbefore : ∀ r ∈ (meantPlaceholders p).take 2, ¬ contains s r.key :=
      List.forall_mem_append.mpr ⟨hfirst, List.forall_mem_cons.mpr
        ⟨hgateway, List.forall_mem_nil _⟩⟩
    have happlies : (!contains s gatewayWord) = true := by
      rw [Bool.eq_false_iff.mpr hword]
      rfl
    refine (rewriteBody_first ((sysdnetRules p).take 2) rfl hno ⟨haddr, happlies⟩).trans ?_
    exact scan_address h ih ((meantPlaceholders p).take 2) rfl hbefore rfl rfl
      (List.mem_cons_of_mem _ List.mem_cons_self) haddr (ha.symm ▸ hw)

theorem outputsysdnet_rest (haddr : ¬ contains s addr) :
    outputsysdnet p s = scan (meantPlaceholders p) s := by
  have hgateway : contains s gatewayLine = false :=
    Bool.eq_false_iff.mpr fun hc => haddr (contains_trans hc gatewayLine_addr)
  have hdns : contains s dnsLine = false :=
    Bool.eq_false_iff.mpr fun hc => haddr (contains_trans hc dnsLine_addr)
  have hrules : rewriteBody (sysdnetRules p) id (outputsysdnet p) s =
      rewriteBody (meantPlaceholders p) id (outputsysdnet p) s := by
    simp only [rewriteBody, sysdnetRules, meantPlaceholders, List.find?_cons, haddr, hgateway,
      hdns, Bool.false_and]
  rw [outputsysdnet_eq_body, hrules]
  refine rewriteBody_eq_scan (meant_apart p) (meantKeys_ne_nil p) (meant_always p) fun r hr hs => ?_
  have hkey : r.key ∈ sysdnetKeys := by
    have hkeys : ∀ k ∈ meantKeys, k = gatewayLine ∨ k = dnsLine ∨ k ∈ sysdnetKeys := by decide
    rcases hkeys r.key (mem_meantKeys hr) with hk | hk | hk
    · rw [hk, hgateway] at hs
      cases hs
    · rw [hk, hdns] at hs
      cases hs
    · exact hk
  have hgood := h
  rw [before_key_after hs] at hgood
  exact ⟨ih _ (length_substringBefore (meantKeys_ne_nil p r hr) hs) (hgood.before hkey),
    ih _ (length_substringAfter (meantKeys_ne_nil p r hr) hs) (hgood.after hkey)⟩

end

theorem outputsysdnet_eq_scan {p : Params} {s : Text} (h : GoodPiece s) :
    outputsysdnet p s = scan (meantPlaceholders p) s := by
  induction hn : s.length using Nat.strong_induction_on generalizing s with
  | _ n ih =>
    have ih' : ∀ t : Text, t.length < s.length → GoodPiece t →
        outputsysdnet p t = scan (meantPlaceholders p) t :=
      fun t ht hgood => ih t.length (hn ▸ ht) hgood rfl
    by_cases hdevice : contains s "<network-device-name>".toList
    · exact outputsysdnet_device h ih' hdevice
    · by_cases haddr : contains s addr
      · exact outputsysdnet_addr h ih' hdevice haddr
      · exact outputsysdnet_rest h ih' haddr

/-! ### Lines -/

theorem word_once {line word v u : Text} (h : ∀ t ∈ line.tails, word <+: t → t = word ++ v)
    {v' : Text} (hline : line = u ++ (word ++ v')) : u ++ (word ++ v) = line ∧ v' = v := by
  have ht := h (word ++ v') ((List.mem_tails _ _).mpr ⟨u, hline.symm⟩) (List.prefix_append word v')
  have hv := List.append_cancel_left ht
  exact ⟨by rw [← hv]; exact hline.symm, hv⟩

theorem head?_newlines {ls : List Text} {c : Char}
    (h : c ∈ (ls.flatMap fun m => '\n' :: m).head?) : c = '\n' := by
  cases ls with
  | nil => cases h
  | cons l ls => exact (Option.some.inj h).symm

theorem goodPiece_lines {ls : List Text} (h : NetLines ls) :
    GoodPiece (List.intercalate ['\n'] ls) := by
  constructor
  · intro x y hxy
    obtain ⟨before, l, after, u, v, rfl, hl, -, rfl⟩ := word_in_line (by decide) (by decide) hxy
    have hline := h.gateway l (by simp) (contains_iff.mpr ⟨u, v, hl⟩)
    have honce : ∀ t ∈ gatewayLine.tails, gatewayWord <+: t → t = gatewayWord ++ '=' :: addr := by
      decide
    obtain ⟨-, rfl⟩ := word_once honce (hline.symm.trans hl)
    exact .inr ⟨_, rfl, fun c => head?_newlines⟩
  · intro x y hxy
    obtain ⟨before, l, after, u, v, rfl, hl, hsuffix, rfl⟩ :=
      word_in_line (by decide) (by decide) hxy
    rcases h.address l (by simp) (contains_iff.mpr ⟨u, v, hl⟩) with hline | hline
    · have honce : ∀ t ∈ gatewayLine.tails, addr <+: t → t = addr ++ [] := by decide
      obtain ⟨hu, -⟩ := word_once honce (hline.symm.trans hl)
      have hword : u = "Gateway=".toList := List.append_cancel_right hu
      exact .inl (hword ▸ hsuffix)
    · have honce : ∀ t ∈ dnsLine.tails, addr <+: t → t = addr ++ [] := by decide
      obtain ⟨hu, rfl⟩ := word_once honce (hline.symm.trans hl)
      have hword : u = "DNS=".toList := List.append_cancel_right hu
      refine .inr ⟨hword ▸ hsuffix, fun hc => ?_⟩
      -- the word would stand in a later line
      cases after with
      | nil => exact absurd hc (by decide)
      | cons m ms =>
        rw [List.flatMap_cons, List.cons_append, ← intercalate_newline] at hc
        rcases contains_append_cons (x := []) (by decide) hc with hnil | hlater
        · exact absurd hnil (by decide)
        · obtain ⟨x', y', hx⟩ := contains_iff.mp hlater
          obtain ⟨before', l', after', u', v', hls, hl', -, -⟩ :=
            word_in_line (by decide) (by decide) hx
          have hmem : l' ∈ m :: ms := by
            rw [hls]
            simp
          have hgateway := h.gateway l' (by simp [hmem]) (contains_iff.mpr ⟨u', v', hl'⟩)
          have horder := (List.pairwise_cons.mp (List.pairwise_append.mp h.order).2.1).1 l' hmem
          exact horder ⟨hline, hgateway⟩

theorem scan_line {p : Params} {l : Text} (h : contains l addr → l = gatewayLine ∨ l = dnsLine) :
    scan (meantPlaceholders p) l = sysdnetLine p l := by
  unfold sysdnetLine
  split_ifs with hgateway hdns
  · have hdevice : ¬ "<network-device-name>".toList <+: gatewayLine := by decide
    rw [hgateway]
    exact scan_key (meant_apart p) ((meantPlaceholders p).take 1) rfl
      (List.forall_mem_cons.mpr ⟨hdevice, List.forall_mem_nil _⟩)
      (show gatewayLine ≠ [] by decide)
  · have hdevice : ¬ "<network-device-name>".toList <+: dnsLine := by decide
    have hword : ¬ gatewayLine <+: dnsLine := by decide
    rw [hdns]
    exact scan_key (meant_apart p) ((meantPlaceholders p).take 2) rfl
      (List.forall_mem_cons.mpr ⟨hdevice, List.forall_mem_cons.mpr
        ⟨hword, List.forall_mem_nil _⟩⟩) (show dnsLine ≠ [] by decide)
  · have hno : ¬ contains l addr := fun hc => (h hc).elim hgateway hdns
    have hnot : ∀ k ∈ [gatewayLine, dnsLine], ¬ contains l k := by
      intro k hk hc
      simp only [List.mem_cons, List.not_mem_nil, or_false] at hk
      rcases hk with rfl | rfl
      · exact hno (contains_trans hc gatewayLine_addr)
      · exact hno (contains_trans hc dnsLine_addr)
    refine (scan_remove ((meantPlaceholders p).take 1) ?_).trans
      (scan_remove ((meantPlaceholders p).take 1) ?_)
    · exact hnot gatewayLine (by simp)
    · exact hnot dnsLine (by simp)

/-- The address of each Gateway line is the gateway and the address of each DNS line the two
name servers; the placeholders of the other lines are replaced at once. -/
theorem sysdnet_lines (p : Params) (s : Text) (h : NetLines (s.splitOn '\n')) :
    outputsysdnet p s = List.intercalate ['\n'] ((s.splitOn '\n').map (sysdnetLine p)) := by
  have hjoin : List.intercalate ['\n'] (s.splitOn '\n') = s := List.intercalate_splitOn '\n'
  have hkeys : ∀ k ∈ meantKeys, k ≠ [] ∧ '\n' ∉ k := by decide
  have hgood := goodPiece_lines h
  rw [hjoin] at hgood
  rw [outputsysdnet_eq_scan hgood]
  conv_lhs => rw [← hjoin]
  rw [scan_intercalate fun r hr => hkeys r.key (mem_meantKeys hr),
    List.map_congr_left fun l hl => scan_line (h.address l hl)]

def sampleNet : Text :=
  textLines ["[Match]", "Name=<network-device-name>", "", "[Network]", "Address=192.168.0.2/24",
    "Gateway=192.168.0.1", "DNS=192.168.0.1", "Domains=<Your Domain Name>"]

theorem sysdnet_lines_sample :
    NetLines (sampleNet.splitOn '\n') ∧
      outputsysdnet {} sampleNet =
        List.intercalate ['\n'] ((sampleNet.splitOn '\n').map (sysdnetLine {})) := by
  have hgateway : ∀ l ∈ sampleNet.splitOn '\n', contains l gatewayWord → l = gatewayLine := by
    decide +kernel
  have haddress : ∀ l ∈ sampleNet.splitOn '\n', contains l addr →
      l = gatewayLine ∨ l = dnsLine := by decide +kernel
  have horder : (sampleNet.splitOn '\n').Pairwise fun l m => ¬ (l = dnsLine ∧ m = gatewayLine) := by
    decide +kernel
  exact ⟨⟨hgateway, haddress, horder⟩, sysdnet_lines {} sampleNet ⟨hgateway, haddress, horder⟩⟩

end HaoosLfs.Book
