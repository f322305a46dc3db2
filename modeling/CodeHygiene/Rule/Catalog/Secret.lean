import CodeHygiene.Rule.Basic

/-!
Credentials in source text. All of them are critical and look at files of every language; test and
example files are left out.
-/

namespace CodeHygiene.Catalog

/-- Files whose secrets are made up. -/
def secretExcludes : List String := ["*.test.*", "*.spec.*", "*.example.*"]

/-- A critical rule for files of every language. -/
def secretRule (name description source : String) (flags : Regex.Flags) (excludes : List String) : Rule :=
  { name, description, severity := .critical, remediation := .flag
    check := .pattern (.ofSource source flags), excludes := secretExcludes ++ excludes }

def hardcodedSecrets : Rule :=
  { name := "hardcoded_secrets"
    description := "Potential hardcoded credentials"
    severity := .critical, remediation := .flag
    check := .pattern (.ofSource
        ("(password|secret|api[_-]?key|token|credential|" ++
        "auth)[_-]?(key|token|secret|pass)?\\s*[:=]\\s*[\\\"'`](?!\\$\\\x7b)" ++
        "(?!\\\x7b\\\x7b)(?!<[A-Z_])(?![x*#]\x7b8,\x7d)" ++
        "(?![X*#]\x7b8,\x7d)[^\\\"'`\\s]\x7b8,\x7d[\\\"'`]") .anyCase)
    excludes := ["*.test.*", "*.spec.*", "*.example.*", "*.sample.*", "README.*", "*.md"] }

def jwtTokens : Rule :=
  secretRule "jwt_tokens" "Hardcoded JWT token"
    "eyJ[A-Za-z0-9_-]\x7b10,\x7d\\.eyJ[A-Za-z0-9_-]\x7b10,\x7d\\.[A-Za-z0-9_-]\x7b10,\x7d" .plain []

def openaiApiKey : Rule :=
  secretRule "openai_api_key" "Hardcoded OpenAI API key"
    "sk-[a-zA-Z0-9]\x7b32,\x7d" .plain []

def githubToken : Rule :=
  secretRule "github_token" "Hardcoded GitHub token"
    ("(ghp_[a-zA-Z0-9]\x7b36\x7d|gho_[a-zA-Z0-9]\x7b36\x7d|" ++
      "ghu_[a-zA-Z0-9]\x7b36\x7d|ghs_[a-zA-Z0-9]\x7b36\x7d|" ++
      "ghr_[a-zA-Z0-9]\x7b36\x7d|github_pat_[a-zA-Z0-9]\x7b22\x7d_[a-zA-Z0-9]\x7b59\x7d)") .plain []

def awsCredentials : Rule :=
  secretRule "aws_credentials" "Hardcoded AWS credentials"
    "(AKIA[0-9A-Z]\x7b16\x7d|aws_secret_access_key\\s*[:=]\\s*[\\\"'`][A-Za-z0-9/+=]\x7b40\x7d[\\\"'`])" .anyCase []

def googleApiKey : Rule :=
  secretRule "google_api_key" "Hardcoded Google/Firebase API key"
    "(AIza[0-9A-Za-z_-]\x7b35\x7d|[0-9]+-[a-z0-9_]\x7b32\x7d\\.apps\\.googleusercontent\\.com)" .plain []

def stripeApiKey : Rule :=
  secretRule "stripe_api_key" "Hardcoded Stripe API key"
    ("(sk_live_[a-zA-Z0-9]\x7b24,\x7d|sk_test_[a-zA-Z0-9]\x7b24,\x7d|" ++
      "rk_live_[a-zA-Z0-9]\x7b24,\x7d|rk_test_[a-zA-Z0-9]\x7b24,\x7d)") .plain []

def slackToken : Rule :=
  secretRule "slack_token" "Hardcoded Slack token or webhook URL"
    ("(xoxb-[0-9]\x7b10,\x7d-[0-9]\x7b10,\x7d-[a-zA-Z0-9]\x7b24\x7d|" ++
      "xoxp-[0-9]\x7b10,\x7d-[0-9]\x7b10,\x7d-[a-zA-Z0-9]\x7b24\x7d|" ++
      "xoxa-[0-9]\x7b10,\x7d-[a-zA-Z0-9]\x7b24\x7d|https://hooks\\.slack\\.com/services/T[A-Z0-9]\x7b8\x7d" ++
      "/B[A-Z0-9]\x7b8,\x7d/[a-zA-Z0-9]\x7b24\x7d)") .plain []

def discordToken : Rule :=
  secretRule "discord_token" "Hardcoded Discord token or webhook"
    ("(discord.*[\\\"'`][A-Za-z0-9_-]\x7b24\x7d\\.[A-Za-z0-9_-]\x7b6\x7d\\.[A-Za-z0-9_-]\x7b27\x7d" ++
      "[\\\"'`]|https://discord(?:app)?\\.com/api/webhooks/[0-9]+/[A-Za-z0-9_-]+)") .anyCase []

def sendgridApiKey : Rule :=
  secretRule "sendgrid_api_key" "Hardcoded SendGrid API key"
    "SG\\.[a-zA-Z0-9_-]\x7b22\x7d\\.[a-zA-Z0-9_-]\x7b43\x7d" .plain []

def twilioCredentials : Rule :=
  secretRule "twilio_credentials" "Hardcoded Twilio credentials"
    "(AC[a-f0-9]\x7b32\x7d|SK[a-f0-9]\x7b32\x7d)" .plain []

def npmToken : Rule :=
  secretRule "npm_token" "Hardcoded NPM token"
    "npm_[a-zA-Z0-9]\x7b36\x7d" .plain []

def privateKey : Rule :=
  secretRule "private_key" "Private key in source code"
    "-----BEGIN\\s+(RSA\\s+)?PRIVATE\\s+KEY-----" .plain ["*.pem.example"]

def highEntropyString : Rule :=
  { name := "high_entropy_string"
    description := "High-entropy string that may be a secret"
    severity := .medium, remediation := .flag
    check := .pattern (.ofSource "[\\\"'`]([A-Za-z0-9+/=_-]\x7b40,\x7d)[\\\"'`]" .plain)
    excludes := ["*.test.*", "*.spec.*", "*.example.*", "*.lock",
      "package-lock.json", "yarn.lock", "pnpm-lock.yaml"]
    leastEntropy := some (.real 4.5) }

end CodeHygiene.Catalog
