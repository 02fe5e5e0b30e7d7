import TaintScan.Rule.Scale
import TaintScan.Secret.Entropy
import TaintScan.Text.Blank

/-! # Credential values

What the value of a literal says about it: the format of a known kind of credential, a random look,
or an obvious placeholder.
-/
namespace TaintScan.Secret

def formats : List (String × String) :=
  [("AKIA", "AWS access key"), ("ASIA", "AWS temporary access key"),
    ("ghp_", "GitHub personal access token"), ("gho_", "GitHub OAuth token"),
    ("ghs_", "GitHub server token"), ("github_pat_", "GitHub fine-grained token"),
    ("xoxb-", "Slack bot token"), ("xoxp-", "Slack user token"),
    ("sk_live_", "Stripe live secret key"), ("sk_test_", "Stripe test secret key"),
    ("sk-", "API secret key"), ("AIza", "Google API key"), ("SG.", "SendGrid API key"),
    ("eyJ", "JSON Web Token"), ("-----BEGIN", "PEM private key")]

/-- The first format that the value starts like and goes on for more than four bytes. -/
def format? (value : String) : Option String :=
  (formats.find? fun f =>
    Text.startsWith f.1 value && Text.Utf8.width f.1 + 4 < Text.Utf8.width value).map (·.2)

/-- More than twenty bytes with more than four and a half bits each. -/
def isHighEntropy (value : String) : Bool :=
  let entropy := Entropy.ofText value
  20 < Text.Utf8.width value && 9 * entropy.den < 2 * entropy.num

def placeholderWords : List String := ["changeme", "xxx", "todo", "placeholder", "none", "null"]

def isPlaceholder (value : String) : Bool :=
  let lower := Text.lowerAscii value
  Text.startsWith "$\x7b" lower || Text.startsWith "\x7b\x7b" lower ||
    (Text.startsWith "<" lower && Text.endsWith ">" lower) || placeholderWords.contains lower

def confidence (base : Confidence) (value : String) : Confidence :=
  if isPlaceholder value then base.lowered
  else if (format? value).isSome || isHighEntropy value then .high
  else base

end TaintScan.Secret
