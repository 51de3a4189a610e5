import Mqo.Build.KnnToNsg
import Mqo.Build.NsgPack
import Mqo.Build.VamanaFile
import Mqo.Build.VamanaRace
import Mqo.Data.AnswerRows
import Mqo.Data.Convert
import Mqo.Data.Subsample
import Mqo.Index.GraphHandler
import Mqo.Index.Integrity
import Mqo.Search.HnswPlain
import Mqo.Search.NsgComplete
import Mqo.Search.NsgFill
import Mqo.Search.QueryRows
import Mqo.Search.VamanaRecall
import Mqo.Trajectory.FlattenRows
import Mqo.Trajectory.FullMstLsh
import Mqo.Trajectory.HnswTrees
import Mqo.Trajectory.LazyPrim
import Mqo.Trajectory.MixedLsh
import Mqo.Trajectory.Options
import Mqo.Trajectory.Split
import Mqo.Trajectory.StoredMst
