import CodeHygiene.Rule.Catalog.Debug
import CodeHygiene.Rule.Catalog.Placeholder
import CodeHygiene.Rule.Catalog.Tidiness
import CodeHygiene.Rule.Catalog.Secret
import CodeHygiene.Rule.Catalog.Wording
import CodeHygiene.Rule.Catalog.Structure

/-!
The built-in rules, in the order in which they report.
-/

namespace CodeHygiene.Catalog

def rules : List Rule :=
  [consoleDebugging, pythonDebugging, rustDebugging, oldTodos, commentedCode, placeholderText,
   placeholderStubReturnsJs, placeholderNotImplementedJs, placeholderEmptyFunctionJs,
   placeholderTodoRust, placeholderPanicTodoRust, placeholderNotImplementedPy,
   placeholderPassOnlyPy, placeholderEllipsisPy, placeholderPanicGo, placeholderUnsupportedJava,
   placeholderStubFunctions, emptyCatchJs, emptyExceptPy, magicNumbers, disabledLinter,
   unusedImportsHint, duplicateStrings, mixedIndentation, trailingWhitespace, multipleBlankLines,
   processExit, bareUrls, hardcodedSecrets, jwtTokens, openaiApiKey, githubToken, awsCredentials,
   googleApiKey, stripeApiKey, slackToken, discordToken, sendgridApiKey, twilioCredentials,
   npmToken, privateKey, highEntropyString, issuePrReferences, filePathReferences,
   genericNamingJs, genericNamingPy, genericNamingRust, genericNamingGo, verbosityPreambles,
   verbosityBuzzwords, verbosityHedging, docCodeRatio, verbosityRatio, overEngineeringMetrics,
   buzzwordInflation]

/-- The built-in rule with a name. -/
def find? (name : String) : Option Rule := rules.find? (·.name = name)

end CodeHygiene.Catalog
