import CcTools.ByteOrder
import CcTools.Clamping
import CcTools.Completion
import CcTools.CopySafety
import CcTools.Counters
import CcTools.DivisorGuard
import CcTools.IsNumber
import CcTools.Layout
import CcTools.Mixing
import CcTools.NetworkBase
import CcTools.PercentileIndex
import CcTools.Quantiles
import CcTools.ReceiveLoop
import CcTools.Rejection
import CcTools.Restart
import CcTools.Split
import CcTools.TopBucket
import CcTools.Transcoding
import CcTools.Trim
import CcTools.Truncation
import CcTools.Permanence
import CcTools.Affixes
import CcTools.LetterCase
import CcTools.Percentiles
import CcTools.Equivariance
import CcTools.Observations
import CcTools.Path
import CcTools.PathText
import CcTools.PathWalk
import CcTools.PathNames
import CcTools.PathAppend
import CcTools.FileName
import CcTools.PathUtils
import CcTools.AbsolutePath
import CcTools.LocalText
import CcTools.PathCompare
