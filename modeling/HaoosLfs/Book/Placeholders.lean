import HaoosLfs.Book.Templates
import HaoosLfs.Lib.Scan

/-!
# Example values of the book (`lfs.xsl:665-905`)

The templates for the network and console files look for one example value after the
other and call themselves on both sides. What they write is the text with all example
values replaced at once.
-/

namespace HaoosLfs.Book
open Text

def netPlaceholders (p : Params) : List RewriteRule :=
  [⟨"eth0".toList, always, p.interface⟩,
    ⟨"192.168.1.1".toList, always, p.gateway⟩,
    ⟨"192.168.1.255".toList, always, p.broadcast⟩,
    ⟨"192.168.1.2".toList, always, p.ip⟩,
    ⟨"24".toList, always, p.netPrefix⟩]

def sysvconsolePlaceholders (p : Params) : List RewriteRule :=
  [⟨"bg_bds-utf8".toList, always, p.keymap⟩,
    ⟨"LatArCyrHeb-16".toList, always, p.font ++ "\"\nLOGLEVEL=\"".toList ++ p.logLevel⟩]

def sysdconsolePlaceholders (p : Params) : List RewriteRule :=
  [⟨"de-latin1".toList, always, p.keymap⟩, ⟨"Lat2-Terminus16".toList, always, p.font⟩]

/-- A template that calls itself on both sides of these placeholders, terminates, and
replaces them at once. -/
structure ReplacesAtOnce (rules : List RewriteRule) (template : Text → Text) : Prop where
  terminates : Terminates (rewriteBody rules id) (rewriteFuel rules id) template
  atOnce : ∀ s, template s = scan rules s

theorem replacesAtOnce {rules : List RewriteRule} (keys : List Text)
    (hkeys : rules.map RewriteRule.key = keys) (hne : ∀ k ∈ keys, k ≠ [])
    (hapart : keys.Pairwise Apart) (halways : ∀ r ∈ rules, r.applies = always) :
    ReplacesAtOnce rules (rewrite rules id) := by
  subst hkeys
  have hkey : ∀ r ∈ rules, r.key ≠ [] := fun r hr => hne r.key (List.mem_map_of_mem hr)
  constructor
  · exact terminates_rewrite hkey id
  · exact rewrite_eq_scan (List.pairwise_map.mp hapart) hkey halways

/-- The templates replace their placeholders at once, whatever the parameters are. -/
theorem placeholders_at_once (p : Params) :
    ReplacesAtOnce (netPlaceholders p) (outputnet p) ∧
      ReplacesAtOnce (sysvconsolePlaceholders p) (outputsysvconsole p) ∧
      ReplacesAtOnce (sysdconsolePlaceholders p) (outputsysdconsole p) := by
  refine ⟨?_, ?_, ?_⟩
  · -- `24` can start inside `192.168.1.2` only, which comes first
    exact replacesAtOnce ["eth0".toList, "192.168.1.1".toList, "192.168.1.255".toList,
      "192.168.1.2".toList, "24".toList] rfl (by decide) (by decide +kernel)
      (by simp [netPlaceholders])
  · exact replacesAtOnce ["bg_bds-utf8".toList, "LatArCyrHeb-16".toList] rfl (by decide)
      (by decide +kernel) (by simp [sysvconsolePlaceholders])
  · exact replacesAtOnce ["de-latin1".toList, "Lat2-Terminus16".toList] rfl (by decide)
      (by decide +kernel) (by simp [sysdconsolePlaceholders])

end HaoosLfs.Book
